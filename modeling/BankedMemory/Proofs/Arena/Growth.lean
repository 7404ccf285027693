import BankedMemory.Proofs.Arena.Trail
import Mathlib.Algebra.BigOperators.Ring.Finset
import Mathlib.Algebra.Group.Action.Defs
import Mathlib.Algebra.Order.BigOperators.Group.Finset

/-!
# Reuse bounds growth

A row is added only if no free row has room, and then all rows of its capacity are live at once.
Since nothing else makes a row, and a trade of storage only moves capacities about, there are never
more rows of one capacity than were live at some moment: `reuse_bounds_growth`. So a client that
gets storage of few sizes and has few rows live at a time does not use up the region, however often
it saves and restores, or makes stacks and frees them.
-/

namespace BankedMemory.Arena

variable {a : Arena} {limit : Nat} {p now : Moment} {ms before : List Moment} {calls : List Call}

/-- When a row is added, all rows of its capacity are live. -/
theorem count_append {size : Nat} (ha : a.Listed)
    (hnone : a.freed.find? (a.hasRoom size) = none) (content : Content) :
    (a.append size content).capacities.count size ≤ (a.append size content).liveRows.length := by
  unfold capacities liveRows
  rw [List.count_eq_countP, List.countP_map, ← List.countP_eq_length_filter]
  refine List.countP_mono_left fun e he hcapacity => ?_
  rw [append_eq, Array.toList_push, List.mem_append, List.mem_singleton] at he
  rcases he with he | rfl
  · -- a free row as large would be on the free list, and have room
    obtain ⟨i, hi, rfl⟩ := List.mem_iff_getElem.mp he
    rw [Array.length_toList] at hi
    have hword : (UInt32.ofNat i).toNat = i :=
      UInt32.toNat_ofNat_of_lt' (Nat.lt_of_lt_of_le hi ha.size_le)
    by_contra hfree
    have hmem : UInt32.ofNat i ∈ a.freed := by
      rw [ha.mem, hword, Array.getElem?_eq_getElem hi]
      simpa [Entry.isFree] using hfree
    have hroom := List.find?_eq_none.mp hnone _ hmem
    unfold hasRoom at hroom
    rw [hword, Array.getElem?_eq_getElem hi] at hroom
    simp at hroom hcapacity
    omega
  · rfl

/-- A change moves capacities about, or adds a row as large as what was asked for. -/
theorem Change.capacities (change : Change a p) (ha : a.Listed) :
    (p.arena.capacities.Perm a.capacities ∧ p.arena.region.length = a.region.length) ∨
    ∃ size, p.event = .allocated size ∧ p.arena.capacities = a.capacities ++ [size] ∧
      p.arena.region.length ≤ a.region.length + size ∧
      p.arena.capacities.count size ≤ p.arena.liveRows.length := by
  cases change with
  | same rows => exact .inl ⟨rows.capacities, rows.length⟩
  | reuse content first row =>
    rw [reuse_eq row]
    exact .inl ⟨.of_eq (capacities_modify fun _ => rfl), Region.length_overwrite ..⟩
  | @append size content none room =>
    refine .inr ⟨size, rfl, capacities_append size content, ?_, count_append ha none content⟩
    rw [append_eq]
    exact (Region.length_resize ..).le
  | free live => exact .inl ⟨.of_eq (capacities_modify fun _ => rfl), rfl⟩

namespace Trail

/-- There are no more rows of a capacity than there were live rows at some moment. -/
theorem count_le (trail : Trail limit ms a) (c : Nat) :
    ∃ p ∈ ms, a.capacities.count c ≤ p.arena.liveRows.length := by
  induction trail with
  | start =>
    refine ⟨_, List.mem_singleton_self _, ?_⟩
    show [0].count c ≤ 1
    exact List.count_le_length
  | @next ms a p trail change ih =>
    obtain ⟨q, hq, hle⟩ := ih
    rcases change.capacities trail.listed with ⟨hperm, -⟩ | ⟨size, -, hcap, -, hlive⟩
    · exact ⟨q, List.mem_cons_of_mem _ hq, by rwa [hperm.count_eq]⟩
    · -- a new row counts for its own capacity alone, and for that this is the moment
      rcases eq_or_ne size c with rfl | hne
      · exact ⟨p, List.mem_cons_self, hlive⟩
      · refine ⟨q, List.mem_cons_of_mem _ hq, ?_⟩
        rwa [hcap, List.count_append, List.count_singleton, if_neg (by simpa using hne), Nat.add_zero]

/-- A row is as large as something that was asked for, except for row 0. -/
theorem capacity_allocated (trail : Trail limit ms a) {c : Nat} (hc : c ∈ a.capacities) :
    c = 0 ∨ ∃ p ∈ ms, p.event = .allocated c := by
  induction trail with
  | start => exact .inl (List.mem_singleton.mp hc)
  | @next ms a p trail change ih =>
    have hbefore : c ∈ a.capacities → c = 0 ∨ ∃ q ∈ p :: ms, q.event = .allocated c := fun hc =>
      (ih hc).imp_right fun ⟨q, hq, hsize⟩ => ⟨q, List.mem_cons_of_mem _ hq, hsize⟩
    rcases change.capacities trail.listed with ⟨hperm, -⟩ | ⟨size, hevent, hcap, -⟩
    · exact hbefore (hperm.mem_iff.mp hc)
    · rw [hcap, List.mem_append, List.mem_singleton] at hc
      rcases hc with hc | rfl
      · exact hbefore hc
      · exact .inr ⟨p, List.mem_cons_self, hevent⟩

theorem length_le (trail : Trail limit ms a) : a.region.length ≤ a.capacities.sum := by
  induction trail with
  | start => exact Nat.zero_le _
  | @next ms a p trail change ih =>
    rcases change.capacities trail.listed with ⟨hperm, hlen⟩ | ⟨size, -, hcap, hlen, -⟩
    · rwa [hlen, hperm.sum_eq]
    · rw [hcap, List.sum_append, List.sum_singleton]
      omega

end Trail

/-- Numbers each of which occurs `K` times at most. -/
theorem sum_le_of_count {l : List Nat} {D : Finset Nat} {K : Nat} (hmem : ∀ c ∈ l, c = 0 ∨ c ∈ D)
    (hcount : ∀ c, l.count c ≤ K) : l.sum ≤ K * ∑ d ∈ D, d := by
  have hzero : ∀ c ∈ l.toFinset, K * c ≠ 0 → c ∈ D := fun c hc hne =>
    (hmem c (List.mem_toFinset.mp hc)).resolve_left (right_ne_zero_of_mul hne)
  calc l.sum = ∑ c ∈ l.toFinset, l.count c * c := by
        simpa only [smul_eq_mul] using Finset.sum_list_count l
    _ ≤ ∑ c ∈ l.toFinset, K * c := Finset.sum_le_sum fun c _ => Nat.mul_le_mul_right c (hcount c)
    _ ≤ ∑ c ∈ D, K * c := Finset.sum_le_sum_of_ne_zero hzero
    _ = K * ∑ d ∈ D, d := (Finset.mul_sum ..).symm

/-- At every moment of a run there are no more rows of one capacity, free ones included, than there
were live rows at some moment so far. So if only storage of sizes in `D` was got, and never more
than `K` rows were live, the region has not grown beyond `K` times the sizes together. -/
theorem reuse_bounds_growth (hs : now :: before <:+ moments limit calls) :
    (∀ c, ∃ p ∈ now :: before, now.arena.capacities.count c ≤ p.arena.liveRows.length) ∧
    ∀ (D : Finset Nat) (K : Nat),
      (∀ p ∈ now :: before, ∀ size, p.event = .allocated size → size ∈ D) →
        (∀ p ∈ now :: before, p.arena.liveRows.length ≤ K) →
          now.arena.region.length ≤ K * ∑ d ∈ D, d := by
  have trail := (trail_moments limit calls).suffix hs
  refine ⟨trail.count_le, fun D K hsizes hlive => ?_⟩
  refine trail.length_le.trans (sum_le_of_count (fun c hc => ?_) fun c => ?_)
  · refine (trail.capacity_allocated hc).imp_right ?_
    rintro ⟨p, hp, hevent⟩
    exact hsizes p hp c hevent
  · obtain ⟨p, hp, hle⟩ := trail.count_le c
    exact hle.trans (hlive p hp)

/-- Storage of two sizes is got and given back, again and again. -/
def storageCycle : List Call :=
  [.allocate 16 .array, .free 1, .allocate 8 .string, .allocate 16 .dict, .free 2, .free 1,
    .allocate 8 .dict, .allocate 16 .string]

/-- Storage is got five times, and the rows of the first two times are all there are. -/
theorem reuse_bounds_growth_cycle : ∃ now before, moments 1000 storageCycle = now :: before ∧
    now.arena.capacities = [0, 16, 8] ∧ now.arena.region.length = 24 ∧
    (∃ p ∈ now :: before, now.arena.capacities.count 16 ≤ p.arena.liveRows.length) ∧
      now.arena.region.length ≤ 3 * ∑ d ∈ ({8, 16} : Finset Nat), d := by
  obtain ⟨now, before, hnow⟩ : ∃ now before, moments 1000 storageCycle = now :: before :=
    List.exists_cons_of_length_pos (by decide +kernel)
  have hs : now :: before <:+ moments 1000 storageCycle := by rw [hnow]
  have hevents : ∀ p ∈ moments 1000 storageCycle,
      p.event ∈ [.allocated 8, .allocated 16, .freed 1, .freed 2, .other] := by
    decide +kernel
  have hlive : ∀ p ∈ moments 1000 storageCycle, p.arena.liveRows.length ≤ 3 := by
    decide +kernel
  have hlast : (moments 1000 storageCycle).head?.map
      (fun p => (p.arena.capacities, p.arena.region.length)) = some ([0, 16, 8], 24) := by
    decide +kernel
  rw [hnow] at hevents hlive hlast
  obtain ⟨hcapacities, hregion⟩ := Prod.mk.inj (Option.some.inj hlast)
  obtain ⟨hcount, hlength⟩ := reuse_bounds_growth hs
  refine ⟨now, before, hnow, hcapacities, hregion, hcount 16,
    hlength {8, 16} 3 (fun p hp size hsize => ?_) hlive⟩
  have hevent := hevents p hp
  rw [hsize] at hevent
  simpa using hevent

end BankedMemory.Arena
