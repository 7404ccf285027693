import BankedMemory.Proofs.Checkpoint.OpenLevels
import BankedMemory.Proofs.Client.Runs

/-!
# Bookkeeping of the open levels

How far the stamps and the records can be trusted as long as arrays are recorded only when they are
stored to: `bookkeeping_exact`.
-/

namespace BankedMemory

/-- The stacks of the client and of the arena. -/
def History.HasStack (h : History) (levels : List OpenLevel) (s : Stack) : Prop :=
  s ∈ h.now.liveStacks ∨ s = h.now.arena.saveStack ∨ ∃ v ∈ levels, s = ⟨v.level.records⟩

structure Bookkeeping (h : History) (levels : List OpenLevel) : Prop where
  keeps : h.now.arena.Keeps levels
  opened : levels.length = h.past.length
  stamp_le : ∀ k e, h.now.arena.entry k = .ok e → e.mark.topLevel.toNat ≤ levels.length
  /-- Of the arrays there are, the stamp tells those the current level need not record: those it has
  recorded and those made in it, if they have storage at all. -/
  preserved : ∀ saved outer, h.past = saved :: outer →
    ∃ new, h.now.arrays = new ++ saved.arrays ∧
      ∀ v ∈ h.now.arrays, ∃ b, h.now.arena.preserved v.ent = .ok b ∧
        (b = true ↔ (∃ top ∈ levels.getLast?, ∃ r ∈ top.records, r.source = v.ent) ∨
          v.size ≠ 0 ∧ v ∈ new)
  once : ∀ v ∈ levels, (v.records.map (·.source)).Nodup
  live : ∀ v ∈ levels, ∀ r ∈ v.records,
    h.now.arena.Live r.source ∧ h.now.arena.Live r.copy ∧ r.source ≠ r.copy
  copies : ((levels.flatMap (·.records)).map (·.copy)).Nodup
  /-- No copy is an array or a segment of a stack. -/
  apart : ∀ v ∈ levels, ∀ r ∈ v.records, r.copy ∉ h.now.arrays.map (·.ent) ∧
    ∀ s, h.HasStack levels s → ∃ segs, h.now.arena.chain s.handle = .ok segs ∧ r.copy ∉ segs

variable {terms : Terms} {base limit : Nat} {h : History} {l : Ledger} {log : Nat → List Record}
  {saved : Client} {outer : List Client} {s : Stack} {v : View} {k : Nat}

namespace Holdings

/-- Each stack has an owner in the ledger. -/
theorem owner_of_stack (hh : Holdings base h l log) (hopen : 0 < h.past.length)
    (hs : h.HasStack (l.openLevels log h.past.length) s) :
    ∃ o : Owner, o.IsStack ∧ (l.held o).head? = some s.handle := by
  rcases hs with hs | rfl | ⟨v, hv, rfl⟩
  · exact ⟨.stack s, trivial, hh.stack s hs⟩
  · exact ⟨.saves, trivial, hh.saves_head (hh.saves_ne_nil hopen)⟩
  · obtain ⟨k, hk, rfl⟩ := Ledger.mem_openLevels.mp hv
    exact ⟨.records k, trivial, hh.records_head hk⟩

theorem copy_not_segment (hh : Holdings base h l log) {r : Record} (hr : r ∈ log k)
    (hs : h.HasStack (l.openLevels log h.past.length) s) :
    ∃ segs, h.now.arena.chain s.handle = .ok segs ∧ r.copy ∉ segs := by
  obtain ⟨o, ho, hd⟩ := hh.owner_of_stack (Nat.zero_lt_of_lt (hh.log_closed hr)) hs
  have hl := hh.describes.laid_of_head ho hd
  refine ⟨_, hl.chain_eq hh.describes.sound hd, hh.describes.not_mem_of_ne (hh.mem_copies hr) ?_⟩
  rintro rfl
  exact ho

theorem copy_not_array (hh : Holdings base h l log) {r : Record} (hr : r ∈ log k) :
    r.copy ∉ h.now.arrays.map (·.ent) := fun hmem => by
  obtain ⟨v, hv, hent⟩ := List.mem_map.mp hmem
  by_cases hsize : v.size = 0
  · exact hh.copy_ne_zero hr (hent.symm.trans ((hh.root v hv).2 hsize))
  · exact hh.copy_not_entity hr (hent ▸ Client.mem_entities hv hsize)

/-- All copies of all levels are different. -/
theorem copies_nodup (hh : Holdings base h l log) :
    (((l.openLevels log h.past.length).flatMap (·.records)).map (·.copy)).Nodup := by
  rw [List.map_flatMap, Ledger.openLevels, List.flatMap_map, List.nodup_flatMap]
  refine ⟨fun k _ => ?_, List.nodup_range.imp fun {j k} hne e hj hk => ?_⟩
  · have hnodup := hh.describes.nodup (.copies k)
    rwa [hh.copies] at hnodup
  · have howner := hh.describes.unique (o := .copies j) (p := .copies k) (h := e)
      (by rw [hh.copies]; exact hj) (by rw [hh.copies]; exact hk)
    cases howner
    exact hne rfl

theorem live_zero (hh : Holdings base h l log) : h.now.arena.Live 0 :=
  (hh.describes.live 0).mpr (.inl rfl)

theorem live_source (hh : Holdings base h l log) {r : Record} (hk : base ≤ k) (hr : r ∈ log k) :
    h.now.arena.Live r.source := by
  rcases hh.source hk hr with h0 | hmem
  · exact h0 ▸ hh.live_zero
  · exact Arena.live_iff_cell.mpr (hh.cell_entity hmem)

end Holdings

namespace Account

/-- Whether the current level need not record an array that has storage. -/
theorem preserved_array (hA : Account terms h l log) (hp : h.past = saved :: outer)
    (hbase : terms.base ≤ outer.length) {new : List View}
    (hnew : h.now.arrays = new ++ saved.arrays) (hv : v ∈ h.now.arrays) (hsize : v.size ≠ 0) :
    h.now.arena.stamp v.ent = h.past.length ↔
      (∃ r ∈ log outer.length, r.source = v.ent) ∨ v ∈ new := by
  have hlen : h.past.length = outer.length + 1 := by rw [hp, List.length_cons]
  have hinner := innermost hp
  have hstamped := hA.stamped saved outer hinner hbase v.ent (Client.mem_entities hv hsize)
  rw [since_eq_nil (by omega), origin_nil] at hstamped
  have hbelow := hA.below v.ent
  have hmade : v.ent ∉ saved.entities ↔ v ∈ new := by
    refine ⟨fun hnot => ?_, fun hmem => hA.entity_since hnew.symm hmem hsize⟩
    rw [hnew] at hv
    exact (List.mem_append.mp hv).resolve_right fun hold => hnot (Client.mem_entities hold hsize)
  rw [← hmade, ← hstamped]
  omega

/-- An array without storage never counts as recorded. -/
theorem preserved_empty (hA : Account (.plain False) h l log) (hp : h.past = saved :: outer)
    (hv : v ∈ h.now.arrays) (hsize : v.size = 0) : h.now.arena.preserved v.ent = .ok false := by
  have hent := (hA.root v hv).2 hsize
  obtain ⟨x, hx⟩ := Arena.live_iff_cell.mp hA.live_zero
  rw [hent, hA.preserved_eq hx, hA.unstamped not_false, hp]
  rfl

theorem bookkeeping (hA : Account (.plain False) h l log) :
    Bookkeeping h (l.openLevels log h.past.length) where
  keeps := hA.keeps
  opened := Ledger.length_openLevels _
  stamp_le k e he := by
    have hbelow := hA.below k
    rw [Arena.stamp_of_cell (Arena.cell_eq_of_entry he)] at hbelow
    rw [Ledger.length_openLevels]
    exact hbelow
  preserved saved outer hp := by
    obtain ⟨new, hnew⟩ := hA.arrays_suffix (innermost hp)
    refine ⟨new, hnew.symm, fun v hv => ?_⟩
    have hlen : h.past.length = outer.length + 1 := by rw [hp, List.length_cons]
    rw [hlen, Ledger.getLast?_openLevels]
    by_cases hsize : v.size = 0
    · have hent := (hA.root v hv).2 hsize
      refine ⟨_, hA.preserved_empty hp hv hsize, fun hnot => absurd hnot Bool.false_ne_true, ?_⟩
      rintro (⟨top, ⟨⟩, r, hr, hsource⟩ | ⟨hne, -⟩)
      · exact absurd (hsource.trans hent) (hA.sourced not_false _ r hr)
      · exact absurd hsize hne
    · obtain ⟨x, hx⟩ := hA.cell_entity (Client.mem_entities hv hsize)
      refine ⟨_, hA.preserved_eq hx, ?_⟩
      rw [decide_eq_true_iff, hA.preserved_array hp (Nat.zero_le _) hnew.symm hv hsize]
      simp [hsize, Ledger.openLevel]
  once v hv := by
    obtain ⟨k, hk, rfl⟩ := Ledger.mem_openLevels.mp hv
    exact hA.once not_false k
  live v hv r hr := by
    obtain ⟨k, hk, rfl⟩ := Ledger.mem_openLevels.mp hv
    exact ⟨hA.live_source (Nat.zero_le k) hr, Arena.live_iff_cell.mpr (hA.cell_copy hr),
      hA.source_ne_copy (Nat.zero_le k) hr hr⟩
  copies := hA.copies_nodup
  apart v hv r hr := by
    obtain ⟨k, hk, rfl⟩ := Ledger.mem_openLevels.mp hv
    exact ⟨hA.copy_not_array hr, fun s hs => hA.copy_not_segment hr hs⟩

end Account

theorem bookkeeping_exact (hr : h.Run False limit) : ∃ levels, Bookkeeping h levels := by
  obtain ⟨l, log, hA⟩ := hr.account
  exact ⟨_, hA.bookkeeping⟩

/-- One level is open, with a record of the array. -/
theorem bookkeeping_exact_arrayStored :
    Bookkeeping History.arrayStored [⟨⟨1, 3⟩, [⟨1, 4⟩]⟩] := by
  obtain ⟨levels, hbook⟩ := bookkeeping_exact History.run_arrayStored
  rwa [hbook.keeps.unique History.keeps_arrayStored]

/-- An empty array made in a level has no storage, and so does not count as recorded there. -/
theorem empty_array_not_preserved : ∃ saved : Client,
    (History.arraySaved.step (.newArray 0)).Run False 1000 ∧
    (History.arraySaved.step (.newArray 0)).past = [saved] ∧
    (History.arraySaved.step (.newArray 0)).now.arrays = { size := 0, ent := 0 } :: saved.arrays ∧
    (History.arraySaved.step (.newArray 0)).now.arena.preserved 0 = .ok false := by
  obtain ⟨saved, hpast, harrays, -⟩ := History.past_arraySaved
  have hrun : (History.arraySaved.step (.newArray 0)).Run False 1000 :=
    .call History.run_arraySaved trivial
  have hp : (History.arraySaved.step (.newArray 0)).past = [saved] := by
    rw [History.past_step (by simp) (by simp), hpast]
  have hmade : (History.arraySaved.step (.newArray 0)).now.arrays =
      { size := 0, ent := 0 } :: saved.arrays := by
    rw [History.arrays_newArray_zero, History.arrays_arraySaved, harrays]
  obtain ⟨l, log, hA⟩ := hrun.account
  have hempty := hA.preserved_empty (v := { size := 0, ent := 0 }) hp
    (by rw [hmade]; exact List.mem_cons_self) rfl
  exact ⟨saved, hrun, hp, hmade, hempty⟩

end BankedMemory
