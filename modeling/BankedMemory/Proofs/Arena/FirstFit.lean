import BankedMemory.Proofs.Arena.Trail

/-!
# Allocation is first fit

The free list is in the order the rows were given back the last time, whatever was done in between,
so the first row on it with room is the one freed earliest. `allocation_first_fit` says which
storage is found, in every arena that calls lead to, and that it is clean and nobody's before.
-/

namespace BankedMemory.Arena

/-- How many moments ago a row was given back the last time. -/
def sinceFreed (h : Handle) (ms : List Moment) : Nat := ms.findIdx (·.event == .freed h)

/-- The free rows were all given back, and are listed in the order in which they were. -/
structure InOrder (ms : List Moment) (a : Arena) : Prop where
  given : ∀ h ∈ a.freed, sinceFreed h ms < ms.length
  order : a.freed.Pairwise fun h k => sinceFreed k ms < sinceFreed h ms

/-- The row is free and has room, and of those it was given back earliest. -/
structure FreedEarliest (ms : List Moment) (a : Arena) (size : Nat) (h : Handle) : Prop where
  free : h ∈ a.freed
  room : a.hasRoom size h
  given : sinceFreed h ms < ms.length
  earliest : ∀ k ∈ a.freed, a.hasRoom size k → k ≠ h → sinceFreed k ms < sinceFreed h ms

/-- In `b` the handle names clean storage that nobody had in `a`; the other handles show what they
showed. -/
structure Handed (a : Arena) (h : Handle) (content : Content) (b : Arena) : Prop where
  dead : ¬a.Live h
  ne_zero : h ≠ 0
  clean : ∃ e, b.entry h = .ok e ∧ e.mark = .blank ∧ e.kind = .used content ∧
    b.contents h = some (List.replicate e.capacity 0)
  others : ∀ k, k ≠ h → b.entry k = a.entry k ∧ b.contents k = a.contents k

variable {limit size : Nat} {calls : List Call} {a b : Arena} {h k : Handle} {e : Entry} {p : Moment}
  {ms : List Moment} {content : Content}

theorem reachable_afterCalls (limit : Nat) (calls : List Call) :
    Reachable limit (afterCalls limit calls) := by
  induction calls with
  | nil => exact .fresh
  | cons call calls ih => exact ih.call call

/-- Every arena that calls lead to is the one after some run of calls. -/
theorem Reachable.exists_calls (reached : Reachable limit a) :
    ∃ calls, afterCalls limit calls = a := by
  induction reached with
  | fresh => exact ⟨[], rfl⟩
  | call _ call ih =>
    obtain ⟨calls, rfl⟩ := ih
    exact ⟨call :: calls, rfl⟩

/-! ## The order of the free list -/

theorem sinceFreed_freed (hevent : p.event = .freed h) : sinceFreed h (p :: ms) = 0 := by
  unfold sinceFreed
  rw [List.findIdx_cons, hevent, BEq.rfl]
  rfl

theorem sinceFreed_cons (hevent : p.event ≠ .freed h) :
    sinceFreed h (p :: ms) = sinceFreed h ms + 1 := by
  unfold sinceFreed
  rw [List.findIdx_cons, beq_eq_false_iff_ne.mpr hevent]
  rfl

/-- Rows that are still free are in the same order a moment later. -/
theorem InOrder.later (ho : InOrder ms a) (hsub : b.freed.Sublist a.freed)
    (hevent : ∀ h, p.event ≠ .freed h) : InOrder (p :: ms) b where
  given h hmem := by
    rw [sinceFreed_cons (hevent h), List.length_cons]
    exact Nat.succ_lt_succ (ho.given h (hsub.subset hmem))
  order := by
    refine (ho.order.sublist hsub).imp fun {h k} hlt => ?_
    rw [sinceFreed_cons (hevent h), sinceFreed_cons (hevent k)]
    exact Nat.succ_lt_succ hlt

/-- A row that was live and is given back comes last. -/
theorem InOrder.freed (ho : InOrder ms a) (hnew : h ∉ a.freed) (hevent : p.event = .freed h)
    (hfreed : b.freed = a.freed ++ [h]) : InOrder (p :: ms) b := by
  have hlater : ∀ k ∈ a.freed, sinceFreed k (p :: ms) = sinceFreed k ms + 1 := fun k hk => by
    refine sinceFreed_cons fun heq => hnew ?_
    rw [hevent] at heq
    cases heq
    exact hk
  constructor
  · intro k hk
    rw [hfreed, List.mem_append, List.mem_singleton] at hk
    rcases hk with hk | rfl
    · rw [hlater k hk, List.length_cons]
      exact Nat.succ_lt_succ (ho.given k hk)
    · rw [sinceFreed_freed hevent]
      exact Nat.succ_pos _
  · rw [hfreed, List.pairwise_append]
    refine ⟨ho.order.imp_of_mem fun {j k} hj hk hlt => ?_, List.pairwise_singleton _ _,
      fun j hj k hk => ?_⟩
    · rw [hlater j hj, hlater k hk]
      exact Nat.succ_lt_succ hlt
    · rw [List.mem_singleton.mp hk, sinceFreed_freed hevent, hlater j hj]
      exact Nat.succ_pos _

theorem Trail.inOrder (trail : Trail limit ms a) : InOrder ms a := by
  induction trail with
  | start => exact ⟨fun _ hmem => absurd hmem List.not_mem_nil, List.Pairwise.nil⟩
  | @next ms a p trail change ih =>
    cases change with
    | same rows => exact ih.later (by rw [rows.freed]) fun _ => Event.noConfusion
    | reuse content first row =>
      rw [reuse_eq row]
      exact ih.later List.erase_sublist fun _ => Event.noConfusion
    | append content none room =>
      rw [append_eq]
      exact ih.later (.refl _) fun _ => Event.noConfusion
    | free live => exact ih.freed (trail.listed.not_mem_of_live live) rfl rfl

theorem InOrder.freedEarliest (ho : InOrder ms a)
    (hfind : a.freed.find? (a.hasRoom size) = some h) : FreedEarliest ms a size h := by
  obtain ⟨hroom, before, after, heq, hbefore⟩ := List.find?_eq_some_iff_append.mp hfind
  have hmem : h ∈ a.freed := List.mem_of_find?_eq_some hfind
  refine ⟨hmem, hroom, ho.given h hmem, fun k hk hkroom hne => ?_⟩
  have horder := ho.order
  rw [heq, List.pairwise_append, List.pairwise_cons] at horder
  rw [heq, List.mem_append, List.mem_cons] at hk
  rcases hk with hk | rfl | hk
  · -- the rows before it have no room
    have hno := hbefore k hk
    rw [hkroom] at hno
    cases hno
  · exact absurd rfl hne
  · exact horder.2.1.1 k hk

/-! ## The storage found -/

/-- Storage under a handle that shows it clean, the rows of the others being what they were. -/
theorem Touches.handed (t : Touches {h} a b) (hs : a.Sound) {n : Nat} (hdead : a.cell h = none)
    (hcell : b.cell h = some ⟨List.replicate n 0, .blank, .used content⟩)
    (hothers : ∀ k, k ≠ h → b.entry k = a.entry k) : Handed a h content b where
  dead := cell_eq_none_iff.mp hdead
  ne_zero := by
    rintro rfl
    exact cell_eq_none_iff.mp hdead hs.live_zero
  clean := by
    obtain ⟨e, he, heq⟩ := entry_of_cell hcell
    obtain ⟨hbytes, hmark, hkind⟩ := Cell.mk.inj heq
    have hlen := t.sound.placed.length_cell he hcell
    rw [List.length_replicate] at hlen
    refine ⟨e, he, hmark.symm, hkind.symm, ?_⟩
    rw [t.sound.contents_eq, hcell, hlen]
    rfl
  others k hk := by
    refine ⟨hothers k hk, ?_⟩
    rw [t.sound.contents_eq, hs.contents_eq, t.cell k hk]

theorem entry_congr (hrow : b.table[k.toNat]? = a.table[k.toNat]?) : b.entry k = a.entry k := by
  unfold entry
  rw [hrow]

theorem handed_reuse (hs : a.Sound) (hrow : a.table[h.toNat]? = some e) (hk : e.kind = .free)
    (content : Content) : Handed a h content (a.reuse h content) := by
  obtain ⟨t, hcell⟩ := reuse_spec hs hrow hk content
  refine t.handed hs (cell_eq_none_of_free hrow hk) hcell fun k hne => entry_congr ?_
  rw [reuse_eq hrow]
  simp only
  rw [getElem?_modify_row (fun e => { e with mark := .blank, kind := .used content }) hrow,
    if_neg (toNat_ne hne)]

theorem handed_append (hs : a.Sound) (hlimit : a.region.length + size ≤ a.limit)
    (hregion : a.region.length + size ≤ longestRegion) (hroom : a.table.size < UInt32.size)
    (content : Content) :
    Handed a (UInt32.ofNat a.table.size) content (a.append size content) := by
  obtain ⟨hdead, t, hcell⟩ := append_spec hs hlimit hregion hroom content
  refine t.handed hs hdead hcell fun k hne => entry_congr ?_
  have hkn : k.toNat ≠ a.table.size := by
    rw [← UInt32.toNat_ofNat_of_lt' hroom]
    exact toNat_ne hne
  rw [append_eq]
  simp only
  rw [Array.getElem?_push, if_neg hkn]

/-! ## Which storage is found -/

section NoneFree

variable (hnone : a.freed.find? (a.hasRoom size) = none)

include hnone

/-- Where no free row has room the limit decides first, then the handles, and only then what a
region can have. -/
theorem allocate_of_none (hword : a.region.length + size < 0x10000000000000000)
    (content : Content) :
    allocate size content a =
      if a.limit < a.region.length + size then .error .arenaFull a
      else if UInt32.size ≤ a.table.size then .error .tableFull a
      else if longestRegion < a.region.length + size then .error .regionTooLong a
      else .ok (UInt32.ofNat a.table.size) (a.append size content) := by
  unfold allocate
  rw [hnone, addWords_eq hword]

theorem allocate_of_full (hword : a.region.length + size < 0x10000000000000000)
    (hfull : a.limit < a.region.length + size ∨ a.table.size = UInt32.size) (content : Content) :
    ∃ f, allocate size content a = .error f a ∧ f.report.condition = .vmError := by
  rw [allocate_of_none hnone hword]
  split_ifs with hlimit hroom hlong
  · exact ⟨.arenaFull, rfl, rfl⟩
  · exact ⟨.tableFull, rfl, rfl⟩
  · exact absurd (hfull.resolve_left hlimit).ge hroom
  · exact absurd (hfull.resolve_left hlimit).ge hroom

end NoneFree

/-- Where calls lead to: of the free rows with room the one given back earliest is found, as a whole
and under its handle, and the others stay listed in their order. If there is none, storage of just
the size asked for is added at the end of the region, below the limit. If there is no room for that,
or no handle left, the request fails and changes nothing. And where the limit allows more than a
region can have the program stops, with the arena as it was. -/
theorem allocation_first_fit
    (hsize : (afterCalls limit calls).region.length + size < 0x10000000000000000)
    (content : Content) :
    let a := afterCalls limit calls
    a.limit = limit ∧
    ((∃ k ∈ a.freed, a.hasRoom size k) → ∃ h e b, allocate size content a = .ok h b ∧
      FreedEarliest (moments limit calls) a size h ∧ a.table[h.toNat]? = some e ∧
        b.table[h.toNat]? = some { e with mark := .blank, kind := .used content } ∧
          b.freed = a.freed.erase h ∧ b.table.size = a.table.size ∧
            b.region.length = a.region.length ∧ Handed a h content b) ∧
    ((¬∃ k ∈ a.freed, a.hasRoom size k) → a.region.length + size ≤ a.limit →
      a.region.length + size ≤ longestRegion → a.table.size < UInt32.size →
        ∃ h b, allocate size content a = .ok h b ∧ h.toNat = a.table.size ∧
          b.table = a.table.push ⟨a.region.length, size, .blank, .used content⟩ ∧
            b.freed = a.freed ∧ b.region.length = a.region.length + size ∧ Handed a h content b) ∧
    ((¬∃ k ∈ a.freed, a.hasRoom size k) →
      a.limit < a.region.length + size ∨ a.table.size = UInt32.size →
        ∃ f, allocate size content a = .error f a ∧ f.report.condition = .vmError) ∧
    ((¬∃ k ∈ a.freed, a.hasRoom size k) → a.region.length + size ≤ a.limit →
      a.table.size < UInt32.size → longestRegion < a.region.length + size →
        ∃ f, allocate size content a = .error f a ∧ f.stops) := by
  intro a
  obtain ⟨reach, hs⟩ := (reachable_afterCalls limit calls).reach
  have horder := (trail_moments limit calls).inOrder
  rw [← List.find?_isSome, Option.not_isSome_iff_eq_none]
  refine ⟨(reach.whole (sound_empty limit) rfl).1, fun hsome => ?_,
    fun hnone hlimit hregion hroom => ?_, fun hnone hfull => allocate_of_full hnone hsize hfull content,
    fun hnone hlimit hroom hlong => ⟨.regionTooLong, ?_, rfl⟩⟩
  · obtain ⟨h, e, hfind, hrow, hk, -, hok⟩ | ⟨hnone, -⟩ := allocate_cases hs size content
    · refine ⟨h, e, _, hok, horder.freedEarliest hfind, hrow, ?_, ?_, ?_, ?_,
        handed_reuse hs hrow hk content⟩
      · rw [reuse_eq hrow]
        simp only
        rw [getElem?_modify_row _ hrow, if_pos rfl]
      · rw [reuse_eq hrow]
      · rw [reuse_eq hrow]
        exact Array.size_modify ..
      · rw [reuse_eq hrow]
        exact Region.length_overwrite ..
    · rw [hnone] at hsome
      cases hsome
  · refine ⟨_, _, ?_, ?_, ?_, ?_, ?_, handed_append hs hlimit hregion hroom content⟩
    · rw [allocate_of_none hnone hsize, if_neg (Nat.not_lt.mpr hlimit),
        if_neg (Nat.not_le.mpr hroom), if_neg (Nat.not_lt.mpr hregion)]
    · exact UInt32.toNat_ofNat_of_lt' hroom
    · rw [append_eq]
    · rw [append_eq]
    · rw [append_eq]
      exact Region.length_resize ..
  · rw [allocate_of_none hnone hsize, if_neg (Nat.not_lt.mpr hlimit),
      if_neg (Nat.not_le.mpr hroom), if_pos hlong]

/-- Two rows of sixteen bytes are freed, the second one first, and it is the one that is found. -/
theorem allocation_first_fit_freed : ∃ b,
    allocate 8 .dict (afterCalls 100
      [.free 1, .free 2, .allocate 16 .array, .allocate 16 .string]) = .ok 2 b ∧
    Handed (afterCalls 100 [.free 1, .free 2, .allocate 16 .array, .allocate 16 .string]) 2 .dict b := by
  have hsize : (afterCalls 100 [.free 1, .free 2, .allocate 16 .array,
      .allocate 16 .string]).region.length + 8 < 0x10000000000000000 := by
    decide +kernel
  obtain ⟨-, hreuse, -⟩ := allocation_first_fit hsize .dict
  obtain ⟨h, e, b, hok, -, -, -, -, -, -, hhanded⟩ := hreuse (by decide +kernel)
  have hfirst : ∃ b, allocate 8 .dict (afterCalls 100
      [.free 1, .free 2, .allocate 16 .array, .allocate 16 .string]) = .ok 2 b := ⟨_, rfl⟩
  obtain ⟨b', hok'⟩ := hfirst
  cases hok.symm.trans hok'
  exact ⟨b, hok, hhanded⟩

/-- Under the greatest limit there is, half of what it allows is asked for. That is no error of
storage: a region cannot be so long, and the program stops. -/
theorem allocation_within_limit_stops :
    let a := afterCalls 0xFFFFFFFFFFFFFFFF []
    a.limit = 0xFFFFFFFFFFFFFFFF ∧ a.freed = [] ∧ a.table.size = 1 ∧
      a.region.length + 0x8000000000000000 ≤ a.limit ∧
      allocate 0x8000000000000000 .string a = .error .regionTooLong a ∧
      Fault.regionTooLong.report.condition = .panic := by
  have hlen : (afterCalls 0xFFFFFFFFFFFFFFFF []).region.length = 0 := rfl
  refine ⟨rfl, rfl, rfl, ?_, ?_, rfl⟩
  · rw [hlen]
    decide
  · rw [allocate_of_none rfl (by rw [hlen]; decide), hlen, if_neg (by decide), if_neg (by decide),
      if_pos (by decide)]

end BankedMemory.Arena
