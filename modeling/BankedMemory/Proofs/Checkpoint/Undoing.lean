import BankedMemory.Proofs.Checkpoint.Log
import BankedMemory.Proofs.Client.Ledger
import Mathlib.Data.List.Induction

/-!
# Undoing the records of a level

Undoing a record gives the entity what its copy showed, and the copy's row goes free. The records
are undone from the last one on, so after all of them an entity shows what `origin` finds for it.
-/

namespace BankedMemory

variable {l : Ledger} {a b : Arena} {m : Nat} {r : Record} {L : List Record} {copies : List Handle}
  {s : Stack}

/-- One record is undone. -/
theorem Ledger.Describes.undo_spec (hl : l.Describes a)
    (hcopies : l.held (.copies m) = copies ++ [r.copy])
    (hsource : r.source = 0 ∨ r.source ∈ l.held .array) :
    ∃ b, Arena.undo r a = .ok () b ∧ Arena.Rewrites {r.source, r.copy} a b ∧
      (l.set (.copies m) copies (l.values (.copies m))).Describes b ∧
      b.shown r.source = a.shown r.copy := by
  have hmem : r.copy ∈ l.held (.copies m) := by
    rw [hcopies]
    exact List.mem_append_right _ (List.mem_singleton_self _)
  have hne : r.source ≠ r.copy := fun heq => by
    rcases hsource with h0 | hs
    · exact hl.ne_zero hmem (heq ▸ h0)
    · exact hl.not_mem_of_ne hmem (by simp) (heq ▸ hs)
  obtain ⟨x, hx⟩ : ∃ x, a.cell r.source = some x := by
    rcases hsource with h0 | hs
    · rw [h0]
      exact Arena.live_iff_cell.mp hl.sound.live_zero
    · exact Arena.live_iff_cell.mp (hl.live_of_mem hs)
  obtain ⟨y, hy⟩ := Arena.live_iff_cell.mp (hl.live_of_mem hmem)
  obtain ⟨b, hrun, hr, hbx, hby⟩ := Arena.exchange_spec hl.sound hne hx hy
  have hlb : l.Describes b := by
    refine hl.touch hr.toTouches ?_ ?_
    · rintro k (rfl | rfl) o ho hk
      · rcases hsource with h0 | hs
        · exact hl.zero o (h0 ▸ hk)
        · refine hl.not_mem_of_ne hk (p := .array) ?_ hs
          rintro rfl
          exact ho
      · refine hl.not_mem_of_ne hk (p := .copies m) ?_ hmem
        rintro rfl
        exact ho
    · rintro k (rfl | rfl)
      · exact iff_of_true (Arena.live_iff_cell.mpr ⟨_, hbx⟩) (Arena.live_iff_cell.mpr ⟨_, hx⟩)
      · exact iff_of_true (Arena.live_iff_cell.mpr ⟨_, hby⟩) (Arena.live_iff_cell.mpr ⟨_, hy⟩)
  obtain ⟨c, hfree, hrc, hc⟩ := Arena.free_spec hlb.sound (hl.ne_zero hmem) hby
  refine ⟨c, ?_, hr.comp (hrc.mono fun k hk => Or.inr hk), ?_, ?_⟩
  · unfold Arena.undo
    rw [EStateM.bind_of_ok hrun]
    exact hfree
  · have hnodup := hl.nodup (.copies m)
    rw [hcopies] at hnodup
    obtain ⟨hcopiesNodup, -, hdisjoint⟩ := List.nodup_append.mp hnodup
    have hout : ∀ k ∈ copies, k ≠ r.copy := fun k hk =>
      hdisjoint k hk r.copy (List.mem_singleton_self _)
    refine hlb.update hrc.toTouches ?_ ?_ hcopiesNodup ?_ ?_ fun ho => absurd ho id
    · rintro k rfl
      exact .inl hmem
    · intro k hk
      rw [hcopies]
      exact .inl (List.mem_append_left _ hk)
    · intro k hk
      have hk' : k ∈ l.held (.copies m) := by
        rw [hcopies]
        exact List.mem_append_left _ hk
      rw [Arena.live_iff_cell, hrc.cell k (hout k hk), ← Arena.live_iff_cell]
      exact hlb.live_of_mem hk'
    · intro k hk hnot
      rw [hcopies, List.mem_append, List.mem_singleton] at hk
      obtain rfl := hk.resolve_left hnot
      exact Arena.cell_eq_none_iff.mp hc
  · rw [Arena.shown_congr (hrc.cell _ hne)]
    unfold Arena.shown
    rw [hbx, hy]
    rfl

/-- A record leaves alone what it is not about. -/
theorem shown_undo (hr : Arena.Rewrites {r.source, r.copy} a b)
    (hs : b.shown r.source = a.shown r.copy) {k : Handle} (hk : k ≠ r.copy) :
    b.shown k = a.shown (origin [r] k) := by
  rw [origin_singleton]
  by_cases heq : r.source = k
  · rw [if_pos heq, ← heq, hs]
  · rw [if_neg heq]
    exact Arena.shown_congr (hr.cell k fun hmem => hmem.elim (Ne.symm heq) hk)

/-! ## All records of a level -/

section Popped

variable {fuel : Nat} (hsome : s.isEmpty a = .ok false)

include hsome

/-- A record that comes off the stack is undone. -/
theorem Arena.undoAll_record (hpop : s.pop a = .ok (.record r) b) :
    undoAll s (fuel + 1) a = (do undo r; undoAll s fuel : ArenaM Unit) b := by
  rw [undoAll, ArenaM.reading_bind hsome, if_neg (by simp), EStateM.bind_of_ok hpop]

/-- No other value should be there. -/
theorem Arena.undoAll_foreign {v : Object} (hpop : s.pop a = .ok v b) (hv : ∀ q, v ≠ .record q) :
    undoAll s (fuel + 1) a = .error .corruptRecord b := by
  rw [undoAll, ArenaM.reading_bind hsome, if_neg (by simp), EStateM.bind_of_ok hpop]
  cases v with
  | record q => exact absurd rfl (hv q)
  | _ => rfl

end Popped

namespace Ledger

/-- The ledger when only the records `L` of level `m` are left. -/
def leave (l : Ledger) (m : Nat) (L : List Record) : Ledger :=
  (l.set (.records m) (l.held (.records m)) (L.map .record)).set (.copies m) (L.map (·.copy))
    (l.values (.copies m))

theorem held_leave {o : Owner} (ho : o ≠ .copies m) : (l.leave m L).held o = l.held o := by
  rw [leave, held_set_ne ho]
  rcases eq_or_ne o (.records m) with rfl | hne
  · rw [held_set_self]
  · rw [held_set_ne hne]

theorem held_leave_copies : (l.leave m L).held (.copies m) = L.map (·.copy) := held_set_self

theorem values_leave {o : Owner} (ho : o ≠ .records m) : (l.leave m L).values o = l.values o := by
  rw [leave]
  rcases eq_or_ne o (.copies m) with rfl | hne
  · rw [values_set_self]
  · rw [values_set_ne hne, values_set_ne ho]

theorem values_leave_records : (l.leave m L).values (.records m) = L.map .record := by
  rw [leave, values_set_ne (by simp), values_set_self]

theorem leave_leave (L' : List Record) : (l.leave m L).leave m L' = l.leave m L' := by
  have hrecords : (l.leave m L).held (.records m) = l.held (.records m) := held_leave (by simp)
  have hcopies : (l.leave m L).values (.copies m) = l.values (.copies m) := values_leave (by simp)
  unfold leave at *
  rw [hrecords, hcopies, set_comm (o := .copies m) (p := .records m) (by simp), set_set, set_set]

theorem leave_self (hvalues : l.values (.records m) = L.map .record)
    (hcopies : l.held (.copies m) = L.map (·.copy)) : l.leave m L = l := by
  rw [leave, ← hvalues, ← hcopies, set_self, set_self]

end Ledger

/-- The records `L` of level `m` are on the stack `s` and to be undone. -/
structure Pending (l : Ledger) (m : Nat) (s : Stack) (L : List Record) (a : Arena) : Prop where
  describes : l.Describes a
  head : (l.held (.records m)).head? = some s.handle
  values : l.values (.records m) = L.map .record
  copies : l.held (.copies m) = L.map (·.copy)
  source : ∀ r ∈ L, r.source = 0 ∨ r.source ∈ l.held .array

namespace Pending

theorem laid (hp : Pending l m s L a) : a.Laid (l.held (.records m)) (L.map .record) := by
  have hlaid := hp.describes.laid_of_head (o := .records m) trivial hp.head
  rwa [hp.values] at hlaid

theorem isEmpty_eq (hp : Pending l m s L a) : s.isEmpty a = .ok L.isEmpty := by
  rw [hp.laid.isEmpty_eq hp.describes.sound hp.head, List.isEmpty_map]

theorem copy_mem (hp : Pending l m s L a) {q : Record} (hq : q ∈ L) : q.copy ∈ l.held (.copies m) := by
  rw [hp.copies]
  exact List.mem_map_of_mem hq

theorem source_ne_copy (hp : Pending l m s L a) {q r : Record} (hr : r ∈ L) (hq : q ∈ L) :
    r.source ≠ q.copy := fun heq => by
  rcases hp.source r hr with h0 | hs
  · exact hp.describes.ne_zero (hp.copy_mem hq) (heq.symm.trans h0)
  · exact hp.describes.not_mem_of_ne (hp.copy_mem hq) (by simp) (heq ▸ hs)

/-- No record is looked up in a segment. -/
theorem origin_not_mem (hp : Pending l m s L a) {M : List Record} (hM : ∀ q ∈ M, q ∈ L) {k : Handle}
    (hk : k ∉ l.held (.records m)) : origin M k ∉ l.held (.records m) := by
  rcases origin_cases M k with ⟨-, hself⟩ | ⟨q, hq, -, hcopy⟩
  · rw [hself]
    exact hk
  · rw [hcopy]
    exact hp.describes.not_mem_of_ne (hp.copy_mem (hM q hq)) (by simp)

/-- The last record comes off the stack and is undone. -/
theorem undo_last (hp : Pending l m s (L ++ [r]) a) :
    ∃ b c, s.pop a = .ok (.record r) b ∧ Arena.undo r b = .ok () c ∧
      Arena.Rewrites Set.univ a c ∧ Pending (l.leave m L) m s L c ∧
      ∀ k, k ∉ l.held (.records m) → k ∉ (L ++ [r]).map (·.copy) →
        c.shown (origin L k) = a.shown (origin (L ++ [r]) k) := by
  have hr : r ∈ L ++ [r] := List.mem_append_right _ (List.mem_singleton_self r)
  have hlaid := hp.laid
  rw [List.map_append, List.map_singleton] at hlaid
  obtain ⟨b, hpop, hrb, hlaidb⟩ := hlaid.pop_spec hp.describes.sound hp.head
  have hlb := hp.describes.revalue hrb.toTouches hlaidb
  have hlast : (l.set (.records m) (l.held (.records m)) (L.map .record)).held (.copies m) =
      L.map (·.copy) ++ [r.copy] := by
    rw [Ledger.held_set_ne (by simp), hp.copies, List.map_append, List.map_singleton]
  have hsource : r.source = 0 ∨
      r.source ∈ (l.set (.records m) (l.held (.records m)) (L.map .record)).held .array := by
    rw [Ledger.held_set_ne (by simp)]
    exact hp.source r hr
  obtain ⟨c, hundo, hrc, hlc, hshown⟩ := hlb.undo_spec hlast hsource
  rw [Ledger.values_set_ne (by simp)] at hlc
  refine ⟨b, c, hpop, hundo, (hrb.mono fun _ _ => trivial).comp (hrc.mono fun _ _ => trivial),
    ⟨hlc, ?_, Ledger.values_leave_records, Ledger.held_leave_copies, fun q hq => ?_⟩,
    fun k hk hnot => ?_⟩
  · rw [Ledger.held_leave (by simp)]
    exact hp.head
  · rw [Ledger.held_leave (by simp)]
    exact hp.source q (List.mem_append_left _ hq)
  · rw [List.map_append, List.map_singleton, List.mem_append, List.mem_singleton, not_or] at hnot
    have hnodup := hp.describes.nodup (.copies m)
    rw [hp.copies, List.map_append, List.map_singleton] at hnodup
    obtain ⟨-, -, hdisjoint⟩ := List.nodup_append.mp hnodup
    -- where `k` is looked for is not the copy just given back
    have hne : origin L k ≠ r.copy := by
      rcases origin_cases L k with ⟨-, hself⟩ | ⟨q, hq, -, hcopy⟩
      · rw [hself]
        exact hnot.2
      · rw [hcopy]
        exact hdisjoint _ (List.mem_map_of_mem hq) _ (List.mem_singleton_self _)
    have hsplit : origin (L ++ [r]) k = origin [r] (origin L k) :=
      origin_append fun q hq p hpr => by
        rw [List.mem_singleton.mp hpr]
        exact hp.source_ne_copy hr (List.mem_append_left _ hq)
    have hout := hp.origin_not_mem (M := L ++ [r]) (fun _ hq => hq) hk
    rw [hsplit] at hout ⊢
    rw [shown_undo hrc hshown hne, Arena.shown_congr (hrb.cell _ hout)]

/-- Undoing all of a level empties its stack of records and gives its copies back. -/
theorem undoAll_spec (fuel : Nat) (hfuel : L.length < fuel) (hp : Pending l m s L a) :
    ∃ b, Arena.undoAll s fuel a = .ok () b ∧ Arena.Rewrites Set.univ a b ∧
      (l.leave m []).Describes b ∧
      ∀ k, k ∉ l.held (.records m) → k ∉ L.map (·.copy) → b.shown k = a.shown (origin L k) := by
  induction L using List.reverseRecOn generalizing l a fuel with
  | nil =>
    obtain ⟨fuel, rfl⟩ : ∃ n, fuel = n + 1 := ⟨fuel - 1, by omega⟩
    refine ⟨a, ?_, .refl hp.describes.sound, ?_, fun k _ _ => rfl⟩
    · rw [Arena.undoAll, ArenaM.reading_bind hp.isEmpty_eq]
      rfl
    · rw [Ledger.leave_self hp.values hp.copies]
      exact hp.describes
  | append_singleton L r ih =>
    obtain ⟨fuel, rfl⟩ : ∃ n, fuel = n + 1 := ⟨fuel - 1, by omega⟩
    have hsome : s.isEmpty a = .ok false := by
      rw [hp.isEmpty_eq]
      simp
    obtain ⟨b, c, hpop, hundo, hrc, hpc, hshown⟩ := hp.undo_last
    rw [List.length_append, List.length_singleton] at hfuel
    obtain ⟨d, hrest, hrd, hld, hshownd⟩ := ih fuel (by omega) hpc
    rw [Ledger.leave_leave] at hld
    refine ⟨d, ?_, hrc.comp hrd, hld, fun k hk hnot => ?_⟩
    · rw [Arena.undoAll_record hsome hpop, EStateM.bind_of_ok hundo]
      exact hrest
    · rw [← hshown k hk hnot]
      rw [List.map_append, List.mem_append, not_or] at hnot
      exact hshownd k (by rwa [Ledger.held_leave (by simp)]) hnot.1

end Pending

end BankedMemory
