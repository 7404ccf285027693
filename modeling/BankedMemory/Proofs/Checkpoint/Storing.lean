import BankedMemory.Proofs.Checkpoint.Preserving

/-!
# Storing an element

An array without the stamp of the current level is older than the level and not recorded in it, so
storing an element records it first; after that, or if it has the stamp, it is written in place.
-/

namespace BankedMemory

variable {terms : Terms} {base : Nat} {h : History} {l : Ledger} {log : Nat → List Record}
  {b : Arena} {e : Handle} {x : Arena.Cell} {v w : View} {i : Int32} {o : Object}

/-- An entity counts as recorded if it has the stamp of the current level. -/
theorem Holdings.preserved_eq (hh : Holdings base h l log) (hx : h.now.arena.cell e = some x) :
    h.now.arena.preserved e = .ok (decide (h.now.arena.stamp e = h.past.length)) := by
  obtain ⟨row, hentry, hrow⟩ := Arena.entry_of_cell hx
  have hmark : row.mark = x.mark := by rw [hrow]
  unfold Arena.preserved
  rw [bind_eq_of_ok hentry, bind_eq_of_ok hh.depth_eq, Arena.stamp_of_cell hx, hmark]
  refine congrArg Except.ok ?_
  rw [Bool.eq_iff_iff, beq_iff_eq, decide_eq_true_iff, ← UInt32.toNat_inj, hh.toNat_depth]

/-- An array without the stamp of the current level was there before the level, which has no record
of it. -/
theorem Account.unrecorded (hA : Account terms h l log) (he : e ∈ h.now.entities)
    (hstamp : h.now.arena.stamp e ≠ h.past.length) {d : Client} {rest : List Client}
    (hp : h.past = d :: rest) (hbase : terms.base ≤ rest.length) :
    e ∈ d.entities ∧ ∀ r ∈ log rest.length, r.source ≠ e := by
  have hlen : h.past.length = rest.length + 1 := by rw [hp, List.length_cons]
  have hinner := innermost hp
  have hstamped := hA.stamped d rest hinner hbase e he
  rw [since_eq_nil (by omega), origin_nil] at hstamped
  have hle := hA.below e
  have hnot : ¬((∃ r ∈ log rest.length, r.source = e) ∨ e ∉ d.entities) := by
    rw [← hstamped]
    omega
  rw [not_or, not_not] at hnot
  exact ⟨hnot.2, fun r hr hs => hnot.1 ⟨r, hr, hs⟩⟩

/-- A window of the client's array names slots of the array. -/
theorem Holdings.window (hh : Holdings base h l log) (hv : v ∈ h.now.arrays)
    (hw : Object.WindowOf (.composite .array v) o) :
    ∃ w, o = .composite .array w ∧ w.ent = v.ent ∧
      ∀ i, w.InRange i → w.offset.toNat + i.toUInt32.toNat < v.size.toNat := by
  obtain ⟨w, ho, hent, hin⟩ := hw.array
  rw [(hh.root v hv).1] at hin
  refine ⟨w, ho, hent, fun i hi => ?_⟩
  have := UInt32.lt_iff_toNat_lt.mp hi.2
  simp only [UInt32.toNat_zero] at hin
  omega

theorem Arena.arrayPut_error (hi : ¬v.InRange i) (o : Object) (a : Arena) :
    arrayPut (.composite .array v) i o a = .error (.indexOutOfRange "array_put") a := by
  have hview : (Object.composite .array v).array? "array_put" = .ok v := rfl
  unfold arrayPut
  rw [ArenaM.reading_bind (f := fun _ => (Object.composite .array v).array? "array_put") hview]
  exact EStateM.bind_of_error (ArenaM.reading_of_error (View.slot_error hi))

/-- An element is stored, unless storage runs out before the entity is kept for the level, or there
is no such element. Then nothing has changed, unless the program stops there. -/
theorem Account.arrayPut_spec (hA : Account terms h l log) {array : Object}
    (harray : h.now.HasArray array) (i : Int32) (o : Object) :
    (∃ b l' log', Arena.arrayPut array i o h.now.arena = .ok () b ∧
      (∃ w, array = .composite .array w ∧ w.InRange i ∧
        h.now.Stored w.ent (w.offset.toNat + i.toUInt32.toNat) o b ∧
        b.stamp w.ent = h.past.length) ∧
      Account terms ⟨⟨b, h.now.arrays, h.now.liveStacks⟩, h.past⟩ l' log' ∧
      l'.SameStacks l ∧ (l'.openLevels log' h.past.length = l.openLevels log h.past.length ∨
        ∃ r, l'.openLevels log' h.past.length =
          OpenLevel.record (l.openLevels log h.past.length) r)) ∨
    ∃ f b, Arena.arrayPut array i o h.now.arena = .error f b ∧
      (∀ w, array = .composite .array w → w.InRange i → h.now.arena.OutOfStorage f) ∧
      (¬f.stops → Account terms ⟨⟨b, h.now.arrays, h.now.liveStacks⟩, h.past⟩ l log ∧
        Arena.Touches ∅ h.now.arena b) := by
  obtain ⟨v, hv, hwindow⟩ := harray
  obtain ⟨w, rfl, hent, hslots⟩ := hA.window hv hwindow
  by_cases hi : w.InRange i
  · have hlt := hslots i hi
    have he := Client.mem_entities hv (size_ne_zero hlt)
    obtain ⟨x, hx⟩ := hA.cell_entity he
    have hview : (Object.composite .array w).array? "array_put" = .ok w := rfl
    unfold Arena.arrayPut
    rw [ArenaM.reading_bind (f := fun _ => (Object.composite .array w).array? "array_put") hview,
      ArenaM.reading_bind (f := fun _ => w.slot i "array_put") (View.slot_eq hi), hent,
      ArenaM.reading_bind (f := fun a => a.preserved v.ent) (hA.preserved_eq hx)]
    simp only
    by_cases hstamp : h.now.arena.stamp v.ent = h.past.length
    · obtain ⟨b, hrun, hAb, hstored, hstampb⟩ := hA.write_spec hv hlt hstamp o
      refine .inl ⟨b, l, log, ?_, ⟨w, rfl, hi, hent ▸ hstored, hent ▸ hstampb⟩, hAb, .refl l, .inl rfl⟩
      rw [if_neg (by simp [hstamp])]
      exact hrun
    · rw [if_pos (by simp [hstamp])]
      have hbase : ¬terms.extra ∨ ¬terms.wide → ∀ n, terms.base ≤ n := fun hplain n => by
        rw [Terms.base_eq_zero hplain]
        exact Nat.zero_le n
      have hmade : ¬terms.wide → ∀ d rest, h.past = d :: rest → v.ent = 0 ∨ v.ent ∈ d.entities :=
        fun hwide d rest hp => .inr (hA.unrecorded he hstamp hp (hbase (.inr hwide) _)).1
      have hplain : ¬terms.extra → v.ent ≠ 0 ∧
          ∀ d rest, h.past = d :: rest → ∀ r ∈ log rest.length, r.source ≠ v.ent := fun hextra => by
        refine ⟨?_, fun d rest hp => (hA.unrecorded he hstamp hp (hbase (.inl hextra) _)).2⟩
        rw [← hA.array] at he
        exact hA.describes.ne_zero he
      rcases hA.preserve_spec .array (.inr he) hmade hplain with
        ⟨b, l', log', hrun, hAb, hsame, ⟨copy, hlevels⟩, hstamped, hkept⟩ | ⟨f, b, hrun, hout, hsame⟩
      · obtain ⟨c, hwrite, hAc, hstored, hstampc⟩ := hAb.write_spec (v := v) hv hlt hstamped o
        refine .inl ⟨c, l', log', ?_, ⟨w, rfl, hi,
          ⟨hent ▸ hstored.here, fun k hk j p hne hp => ?_⟩, hent ▸ hstampc⟩, hAc, hsame,
          .inr ⟨⟨v.ent, copy⟩, hlevels⟩⟩
        · rw [EStateM.bind_of_ok hrun]
          exact hwrite
        · exact hstored.elsewhere k hk j p (hent ▸ hne) (hkept k hk j p hp)
      · exact .inr ⟨f, b, EStateM.bind_of_error hrun, fun _ _ _ => hout, hsame⟩
  · refine .inr ⟨_, h.now.arena, Arena.arrayPut_error hi o _, fun w' heq hin => ?_,
      fun _ => ⟨hA, .refl hA.describes.sound⟩⟩
    cases heq
    exact absurd hin hi

end BankedMemory
