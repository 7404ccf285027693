import BankedMemory.Proofs.Checkpoint.Arrays

/-!
# Recording an entity

Before an entity is changed it is copied aside and the copy is recorded in the current level. If
anything on the way fails, every row shows what it showed; if all goes well, the level finds the old
contents and the old mark in the copy, and the entity has the stamp of the level.
-/

namespace BankedMemory

variable {terms : Terms} {base : Nat} {h : History} {l l' : Ledger} {log : Nat → List Record}
  {a b : Arena} {k n : Nat} {e copy : Handle} {x : Arena.Cell} {row : Entry} {rows : List Handle}
  {content : Content}

namespace Ledger

/-- The ledger with one more copy kept for level `n`, and one more record of it. -/
def record (l : Ledger) (n : Nat) (e copy : Handle) (rows : List Handle) : Ledger :=
  (l.set (.copies n) (l.held (.copies n) ++ [copy]) (l.values (.copies n))).set (.records n) rows
    (l.values (.records n) ++ [.record ⟨e, copy⟩])

theorem held_record {o : Owner} (hcopies : o ≠ .copies n) (hrecords : o ≠ .records n) :
    (l.record n e copy rows).held o = l.held o := by
  rw [record, held_set_ne hrecords, held_set_ne hcopies]

theorem values_record {o : Owner} (hrecords : o ≠ .records n) :
    (l.record n e copy rows).values o = l.values o := by
  rw [record, values_set_ne hrecords]
  rcases eq_or_ne o (.copies n) with rfl | hne
  · rw [values_set_self]
  · rw [values_set_ne hne]

theorem held_record_copies :
    (l.record n e copy rows).held (.copies n) = l.held (.copies n) ++ [copy] := by
  rw [record, held_set_ne (by simp), held_set_self]

theorem held_record_records : (l.record n e copy rows).held (.records n) = rows := by
  rw [record, held_set_self]

/-- The ledger with one more copy for level `n`, not recorded yet. -/
def keep (l : Ledger) (n : Nat) (copy : Handle) : Ledger :=
  l.set (.copies n) (l.held (.copies n) ++ [copy]) (l.values (.copies n))

theorem held_keep {o : Owner} (ho : o ≠ .copies n) : (l.keep n copy).held o = l.held o :=
  held_set_ne ho

theorem mem_keep : copy ∈ (l.keep n copy).held (.copies n) := by
  rw [keep, held_set_self]
  exact List.mem_append_right _ (List.mem_singleton_self copy)

theorem values_keep : (l.keep n copy).values = l.values := Function.update_eq_self ..

theorem level_keep : (l.keep n copy).level = l.level := funext fun k => by
  unfold level
  rw [held_keep (by simp)]

theorem keep_record : (l.keep n copy).set (.records n) rows
    (l.values (.records n) ++ [.record ⟨e, copy⟩]) = l.record n e copy rows := rfl

/-- The record goes to the level on top of the save stack. -/
theorem Describes.addRecord_eq (hl : l.Describes a) (hsaves : a.saves = (l.held .saves).head?)
    (hopen : l.held .saves ≠ []) (hlevels : l.values .saves = (List.range (n + 1)).map l.level)
    (e copy : Handle) :
    Arena.addRecord e copy a =
      (Stack.mk ((l.held (.records n)).headD 0)).push (.record ⟨e, copy⟩) a := by
  obtain ⟨s, hd⟩ : ∃ s, (l.held .saves).head? = some s := by
    cases hheld : l.held .saves with
    | nil => exact absurd hheld hopen
    | cons s rest => exact ⟨s, rfl⟩
  have hstack : a.saveStack = ⟨s⟩ := by
    unfold Arena.saveStack
    rw [hsaves, hd]
    rfl
  have hlaid := hl.laid_of_head (o := .saves) (s := a.saveStack) trivial (by rw [hstack]; exact hd)
  have htop : a.saveStack.top 0 a = .ok (l.level n) := by
    refine hlaid.top_eq hl.sound (by rw [hstack]; exact hd) ?_
    rw [hlevels, List.range_succ, List.map_append, List.reverse_append]
    rfl
  unfold Arena.addRecord
  rw [ArenaM.reading_bind (f := fun a => a.saveStack.top 0 a) htop]
  rfl

end Ledger

/-- A copy is at least as long as what it was made from, and agrees with it. -/
def Arena.Cell.CopyOf (y x : Cell) : Prop :=
  y.mark = x.mark ∧ ∀ i, x.HasSlot i → y.HasSlot i ∧ y.slot i = x.slot i

theorem Arena.Cell.copyOf_patch {m : Nat} {kind : Kind} (hle : x.bytes.length ≤ m) :
    Cell.CopyOf ⟨patch (List.replicate m 0) 0 x.bytes, x.mark, kind⟩ x := by
  have hle' : x.bytes.length ≤ (List.replicate m (0 : UInt8)).length := by
    rw [List.length_replicate]
    exact hle
  refine ⟨rfl, fun i hi => ⟨?_, slotAt_patch_zero hle' hi⟩⟩
  unfold HasSlot at *
  rw [length_patch (by rw [Nat.zero_add]; exact hle'), List.length_replicate]
  omega

/-- The copy is made in storage that nobody held; what is left to do is to record it. -/
theorem Holdings.copyAside_eq (hh : Holdings base h l log) (hentry : h.now.arena.entry e = .ok row)
    (hx : h.now.arena.cell e = some x) (content : Content) :
    (∃ copy b y, Arena.copyAside content e row h.now.arena =
        (Arena.addRecord e copy).orUndo (Arena.free copy) b ∧ h.now.arena.cell copy = none ∧
      Arena.Touches {copy} h.now.arena b ∧ b.cell copy = some y ∧ y.CopyOf x) ∨
    ∃ f, Arena.copyAside content e row h.now.arena = .error f h.now.arena ∧
      h.now.arena.OutOfStorage f := by
  have hs := hh.describes.sound
  have hlen := hs.placed.length_cell hentry hx
  have hmark : row.mark = x.mark := by
    rw [Arena.cell_eq_of_entry hentry] at hx
    cases hx
    rfl
  unfold Arena.copyAside
  rcases Arena.allocateCollectable_spec hs (hs.placed.capacity_le hentry) content with
    ⟨copy, b, hrun, -, hdead, t, m, hm, hb⟩ | ⟨f, hrun, hout⟩
  · left
    have hne : e ≠ copy := by
      rintro rfl
      rw [hdead] at hx
      cases hx
    have hxb : b.cell e = some x := by rw [t.cell e hne, hx]
    obtain ⟨c, hrunc, hrc, hc⟩ := Arena.copyContents_spec t.sound hxb hb
      (by rw [List.length_replicate, hlen]; exact hm)
    obtain ⟨d, hrund, hrd, hd⟩ := Arena.setMark_spec hrc.sound hc row.mark
    refine ⟨copy, d, _, ?_, hdead, (t.comp hrc.toTouches).comp hrd.toTouches, hd, ?_⟩
    · rw [EStateM.bind_of_ok hrun, EStateM.bind_of_ok hrunc, EStateM.bind_of_ok hrund]
    · rw [hmark]
      exact Arena.Cell.copyOf_patch (by rw [hlen]; exact hm)
  · exact .inr ⟨f, EStateM.bind_of_error hrun, hout⟩

section Copy

variable (hh : Holdings base h l log) (t : Arena.Touches {copy} h.now.arena b)
  (hl : (l.keep n copy).Describes b)

include hh t hl

/-- The level with the copy is still on top of the save stack. -/
theorem Holdings.addRecord_keep (hn : h.past.length = n + 1) (e : Handle) :
    Arena.addRecord e copy b =
      (Stack.mk ((l.held (.records n)).headD 0)).push (.record ⟨e, copy⟩) b := by
  have hsaves : b.saves = ((l.keep n copy).held .saves).head? := by
    rw [Ledger.held_keep (by simp), t.saves, hh.saves]
  have hopen : (l.keep n copy).held .saves ≠ [] := by
    rw [Ledger.held_keep (by simp)]
    exact hh.saves_ne_nil (by omega)
  have hlevels : (l.keep n copy).values .saves =
      (List.range (n + 1)).map (l.keep n copy).level := by
    rw [Ledger.values_keep, Ledger.level_keep, hh.levels, hn]
  rw [hl.addRecord_eq hsaves hopen hlevels, Ledger.held_keep (by simp)]

/-- A copy that could not be recorded is given back. -/
theorem Holdings.abandon_copy (hdead : h.now.arena.cell copy = none) {y : Arena.Cell}
    (hy : b.cell copy = some y) :
    ∃ c, Arena.free copy b = .ok () c ∧ l.Describes c ∧ c.saves = h.now.arena.saves ∧
      c.limit = h.now.arena.limit ∧ ∀ k, c.cell k = h.now.arena.cell k := by
  obtain ⟨c, hfree, hrc, hc⟩ := Arena.free_spec hl.sound (hl.ne_zero Ledger.mem_keep) hy
  have tc := t.comp hrc.toTouches
  have hcell : ∀ k, c.cell k = h.now.arena.cell k := fun k => by
    rcases eq_or_ne k copy with rfl | hne
    · rw [hc, hdead]
    · exact tc.cell k hne
  refine ⟨c, hfree, hh.describes.touch tc ?_ ?_, tc.saves, tc.limit, hcell⟩
  · rintro k rfl o -
    exact hh.describes.not_mem_of_none hdead o
  · intro k _
    rw [Arena.live_iff_cell, Arena.live_iff_cell, hcell]

end Copy

/-- Copying aside either records a copy in level `n`, or storage runs out; then every row is left as
it was, unless the program stops there. -/
theorem Holdings.copyAside_spec (hh : Holdings base h l log) (hn : h.past.length = n + 1)
    (hx : h.now.arena.cell e = some x) (hentry : h.now.arena.entry e = .ok row)
    (content : Content) :
    (∃ copy rows b y, Arena.copyAside content e row h.now.arena = .ok () b ∧
      h.now.arena.cell copy = none ∧ rows.head? = (l.held (.records n)).head? ∧
      Arena.Touches {k | k = copy ∨ k ∈ rows} h.now.arena b ∧
      (l.record n e copy rows).Describes b ∧ b.cell copy = some y ∧ y.CopyOf x) ∨
    ∃ f b, Arena.copyAside content e row h.now.arena = .error f b ∧ h.now.arena.OutOfStorage f ∧
      (¬f.stops → l.Describes b ∧ b.saves = h.now.arena.saves ∧ b.limit = h.now.arena.limit ∧
        ∀ k, b.cell k = h.now.arena.cell k) := by
  have hr := hh.records_head (k := n) (by omega)
  rcases hh.copyAside_eq hentry hx content with ⟨copy, b, y, heq, hdead, t, hy, hcopy⟩ | ⟨f, hrun, hout⟩
  · have hl : (l.keep n copy).Describes b := hh.describes.take t id hdead
      (Arena.live_iff_cell.mpr ⟨y, hy⟩) (List.perm_append_singleton copy _)
    have hadd := hh.addRecord_keep t hl hn e
    have hd : ((l.keep n copy).held (.records n)).head? = some ((l.held (.records n)).headD 0) := by
      rw [Ledger.held_keep (by simp)]
      exact hr
    rcases hl.push_spec (s := ⟨(l.held (.records n)).headD 0⟩) (o := .records n) trivial hd
      (.record ⟨e, copy⟩) with ⟨rows, c, hpush, hhead, -, -, tc, hlc⟩ | ⟨f, hpush, hout, -⟩
    · rw [Ledger.values_keep, Ledger.keep_record] at hlc
      have hfresh : copy ∉ rows := fun hmem => by
        have hheld : copy ∈ (l.record n e copy rows).held (.copies n) := by
          rw [Ledger.held_record_copies]
          exact List.mem_append_right _ (List.mem_singleton_self copy)
        have hnot := hlc.not_mem_of_ne (p := .records n) hheld (by simp)
        rw [Ledger.held_record_records] at hnot
        exact hnot hmem
      refine .inl ⟨copy, rows, c, y, ?_, hdead, hhead.trans hr.symm,
        (t.trans tc).mono fun k hk => hk, hlc, by rw [tc.cell copy hfresh, hy], hcopy⟩
      rw [heq]
      exact ArenaM.orUndo_of_ok (hadd.trans hpush)
    · by_cases hstop : f.stops
      · refine .inr ⟨f, b, ?_, hout.congr t.limit, fun hgoes => absurd hstop hgoes⟩
        rw [heq]
        exact ArenaM.orUndo_of_stop (hadd.trans hpush) hstop
      · obtain ⟨c, hfree, hkept⟩ := hh.abandon_copy t hl hdead hy
        refine .inr ⟨f, c, ?_, hout.congr t.limit, fun _ => hkept⟩
        rw [heq]
        exact ArenaM.orUndo_of_error (hadd.trans hpush) hstop hfree
  · exact .inr ⟨f, _, hrun, hout, fun _ => ⟨hh.describes, rfl, rfl, fun _ => rfl⟩⟩

end BankedMemory
