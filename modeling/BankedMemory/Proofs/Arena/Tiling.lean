import BankedMemory.Proofs.Arena.Calls
import Mathlib.Algebra.BigOperators.Group.List.Basic
import Mathlib.Algebra.GroupWithZero.Nat
import Mathlib.Data.List.Induction

/-!
# The rows divide up the region

In every arena that calls lead to, with whatever handles and values they are made, the rows lie in
the region and apart from each other and their capacities add up to its length, the free list is
exact, and so are the counts an arena gives of itself. A write or a copy into one entity is seen
through no other handle. Each elementary step keeps the sum; the rest is `Sound`.
-/

namespace BankedMemory.Arena

/-- The capacities of all rows, free ones included, in the order of their handles. -/
def capacities (a : Arena) : List Nat := a.table.toList.map (·.capacity)

/-- The rows, free ones included, divide up the region between them, and the free list is exact. -/
structure Tiled (limit : Nat) (a : Arena) : Prop where
  inside : ∀ (i : Nat) (e : Entry), a.table[i]? = some e → e.address + e.capacity ≤ a.region.length
  apart : ∀ (i j : Nat) (e f : Entry), i ≠ j → a.table[i]? = some e → a.table[j]? = some f →
    Apart e f
  whole : a.capacities.sum = a.region.length
  length_le : a.region.length ≤ limit
  /-- Every row has a handle. -/
  size_le : a.table.size ≤ UInt32.size
  freed_nodup : a.freed.Nodup
  mem_freed : ∀ h : Handle, h ∈ a.freed ↔ ∃ e, a.table[h.toNat]? = some e ∧ e.kind = .free
  zero_not_mem : 0 ∉ a.freed

/-- The counts an arena gives are those of its rows. -/
structure Counted (a : Arena) : Prop where
  live : a.usage.live = a.table.toList.tail.countP (!·.isFree)
  /-- So there is no row missing when the free rows and row 0 are taken off. -/
  free : a.usage.free + 1 ≤ a.table.size
  bytes : a.usage.bytesInUse + ((a.table.toList.filter (·.isFree)).map (·.capacity)).sum =
    a.region.length

/-- The handle shows the same bytes in both arenas, as a whole and element by element. -/
def SameThrough (k : Handle) (a b : Arena) : Prop :=
  b.contents k = a.contents k ∧ ∀ i w, b.read k i w = a.read k i w

variable {T : Trading} {a b : Arena} {h k : Handle} {x : Cell} {e f : Entry} {limit : Nat}

/-! ## Capacities -/

theorem capacities_modify {rows : Array Entry} {n : Nat} {g : Entry → Entry}
    (hg : ∀ e, (g e).capacity = e.capacity) :
    (rows.modify n g).toList.map (·.capacity) = rows.toList.map (·.capacity) := by
  refine List.ext_getElem? fun i => ?_
  rw [List.getElem?_map, List.getElem?_map, Array.getElem?_toList, Array.getElem?_toList,
    Array.getElem?_modify]
  split
  · rw [Option.map_map]
    exact congrArg (Option.map · _) (funext hg)
  · rfl

theorem capacities_lowered {rows : Array Entry} (level : UInt32) :
    (rows.map (lowerRow level)).toList.map (·.capacity) = rows.toList.map (·.capacity) := by
  rw [Array.toList_map, List.map_map]
  exact List.map_congr_left fun e _ => (lowerRow_place level e).2.1

theorem capacities_append (size : Nat) (content : Content) :
    (a.append size content).capacities = a.capacities ++ [size] := by
  rw [append_eq]
  unfold capacities
  rw [Array.toList_push, List.map_append]
  rfl

/-- Rows that trade storage trade their capacities. -/
theorem capacities_trade {rows : Array Entry} {i j : Nat} (hi : rows[i]? = some e)
    (hj : rows[j]? = some f) :
    ((trade rows i j e f).toList.map (·.capacity)).Perm (rows.toList.map (·.capacity)) := by
  rcases eq_or_ne i j with rfl | hij
  · cases hi.symm.trans hj
    rw [trade_self hi]
  · have hswap : (trade rows i j e f).toList.map (·.capacity) =
        ((rows.toList.map (·.capacity)).set i f.capacity).set j e.capacity := by
      refine List.ext_getElem? fun n => ?_
      rw [List.getElem?_map, Array.getElem?_toList, getElem?_trade hij hi hj, List.getElem?_set,
        List.getElem?_set, List.getElem?_map, Array.getElem?_toList]
      grind [Entry.withStorageOf]
    have hback : ∀ {m : Nat} {g : Entry}, rows[m]? = some g →
        (rows.toList.map (·.capacity))[m]? = some g.capacity := fun hm => by
      rw [List.getElem?_map, Array.getElem?_toList, hm, Option.map_some]
    obtain ⟨_, hei⟩ := List.getElem?_eq_some_iff.mp (hback hi)
    obtain ⟨_, hfj⟩ := List.getElem?_eq_some_iff.mp (hback hj)
    rw [hswap, ← hei, ← hfj]
    exact List.set_set_perm _ _

/-- A step adds the capacity it takes from the end of the region, or only moves capacities. -/
theorem Step.capacities (step : Step T a b) :
    b.limit = a.limit ∧
      (b.capacities.sum = a.capacities.sum ∧ b.region.length = a.region.length ∨
        ∃ size, b.capacities = a.capacities ++ [size] ∧
          b.region.length = a.region.length + size) := by
  cases step with
  | reuse content first row free room =>
    rw [reuse_eq row]
    refine ⟨rfl, .inl ⟨?_, Region.length_overwrite ..⟩⟩
    exact congrArg List.sum (capacities_modify fun _ => rfl)
  | @append size content none fits possible room =>
    have hcap := capacities_append (a := a) size content
    rw [append_eq] at hcap ⊢
    exact ⟨rfl, .inr ⟨size, hcap, Region.length_resize ..⟩⟩
  | free live owned => exact ⟨rfl, .inl ⟨congrArg List.sum (capacities_modify fun _ => rfl), rfl⟩⟩
  | overwrite live after before => exact ⟨rfl, .inl ⟨rfl, Region.length_overwrite ..⟩⟩
  | setMark live mark => exact ⟨rfl, .inl ⟨congrArg List.sum (capacities_modify fun _ => rfl), rfl⟩⟩
  | lowerTopLevels level => exact ⟨rfl, .inl ⟨congrArg List.sum (capacities_lowered level), rfl⟩⟩
  | exchange live live' allowed =>
    refine ⟨rfl, .inl ⟨?_, rfl⟩⟩
    exact (capacities_trade (entry_eq_ok_iff.mp live).1 (entry_eq_ok_iff.mp live').1).sum_eq
  | count => exact ⟨rfl, .inl ⟨rfl, rfl⟩⟩
  | openSaves s => exact ⟨rfl, .inl ⟨rfl, rfl⟩⟩

theorem Reach.whole (reach : Reach T a b) (hs : a.Sound) (ha : a.capacities.sum = a.region.length) :
    b.limit = a.limit ∧ b.capacities.sum = b.region.length := by
  refine reach.keeps (P := fun b => b.limit = a.limit ∧ b.capacities.sum = b.region.length)
    (fun b c step hb ih => ?_) hs ⟨rfl, ha⟩
  obtain ⟨hlimit, hsum⟩ := ih
  obtain ⟨hlimit', ⟨hcap, hlen⟩ | ⟨size, hcap, hlen⟩⟩ := step.capacities
  · exact ⟨hlimit'.trans hlimit, by rw [hcap, hlen, hsum]⟩
  · refine ⟨hlimit'.trans hlimit, ?_⟩
    rw [hcap, hlen, List.sum_append, hsum, List.sum_singleton]

/-! ## Counts -/

theorem countP_range {α : Type} (p : Option α → Bool) (l : List α) :
    (List.range l.length).countP (fun i => p l[i]?) = l.countP (fun x => p (some x)) := by
  induction l using List.reverseRecOn with
  | nil => rfl
  | append_singleton l x ih =>
    have hbefore : (List.range l.length).countP (fun i => p (l ++ [x])[i]?) =
        (List.range l.length).countP fun i => p l[i]? := by
      refine List.countP_congr fun i hi => ?_
      rw [List.getElem?_append_left (List.mem_range.mp hi)]
    rw [List.length_append, List.length_singleton, List.range_succ, List.countP_append, hbefore, ih,
      List.countP_append]
    simp

/-- There are as many handles on the free list as free rows. -/
theorem Sound.length_freed (hs : a.Sound) : a.freed.length = a.table.toList.countP (·.isFree) := by
  have hfree : ∀ i : Nat, (a.table.toList[i]?.any (·.isFree)) = true ↔
      ∃ e, a.table[i]? = some e ∧ e.kind = .free := by
    intro i
    rw [Array.getElem?_toList, Option.any_eq_true]
    simp [Entry.isFree]
  have hperm : (a.freed.map UInt32.toNat).Perm
      ((List.range a.table.size).filter fun i => a.table.toList[i]?.any (·.isFree)) := by
    refine (List.perm_ext_iff_of_nodup ?_ (List.nodup_range.filter _)).mpr fun i => ?_
    · exact hs.freed_nodup.map fun _ _ heq => UInt32.toNat_inj.mp heq
    · rw [List.mem_filter, hfree, List.mem_range, List.mem_map]
      constructor
      · rintro ⟨h, hmem, rfl⟩
        obtain ⟨e, hrow, hk⟩ := (hs.mem_freed h).mp hmem
        exact ⟨(Array.getElem?_eq_some_iff.mp hrow).1, e, hrow, hk⟩
      · rintro ⟨hlt, e, hrow, hk⟩
        have hsize := hs.size_le
        have hi : (UInt32.ofNat i).toNat = i :=
          UInt32.toNat_ofNat_of_lt' (Nat.lt_of_lt_of_le hlt hsize)
        exact ⟨UInt32.ofNat i, (hs.mem_freed _).mpr ⟨e, by rw [hi, hrow], hk⟩, hi⟩
  have := hperm.length_eq
  rw [List.length_map, ← List.countP_eq_length_filter, ← Array.length_toList, countP_range] at this
  simpa using this

theorem counted (hs : a.Sound) (hwhole : a.capacities.sum = a.region.length) : a.Counted := by
  have hfreed := hs.length_freed
  have hsplit := a.table.toList.length_eq_countP_add_countP (·.isFree)
  obtain ⟨e, rows, hrows⟩ : ∃ e rows, a.table.toList = e :: rows := by
    refine List.exists_cons_of_length_pos ?_
    simpa using hs.size_pos
  have hused : e.isFree = false := by
    have hrow : a.table[0]? = some e := by
      rw [← Array.getElem?_toList, hrows, List.getElem?_cons_zero]
    have := (hs.reserved hrow).mpr rfl
    simp [Entry.isFree, this]
  have hlive : a.table.toList.countP (!·.isFree) = rows.countP (!·.isFree) + 1 := by
    rw [hrows, List.countP_cons, hused]
    rfl
  have hsize : a.table.size = a.freed.length + a.table.toList.countP (!·.isFree) := by
    rw [hfreed, ← Array.length_toList, hsplit]
    simp
  refine ⟨?_, ?_, ?_⟩
  · show a.table.size - 1 - a.freed.length = _
    rw [hrows, List.tail_cons]
    omega
  · show a.freed.length + 1 ≤ a.table.size
    omega
  · have hbytes : a.usage.bytesInUse = (a.liveRows.map (·.capacity)).sum := by
      rw [List.sum_eq_foldr, List.foldr_map]
      rfl
    have hperm := (List.filter_append_perm (·.isFree) a.table.toList).map (·.capacity)
    rw [hbytes, ← hwhole, capacities, ← hperm.sum_eq, List.map_append, List.sum_append,
      Nat.add_comm]
    rfl

/-! ## What a write is seen through -/

theorem Touches.sameThrough {F : Set Handle} (t : Touches F a b) (hs : a.Sound) (hk : k ∉ F) :
    SameThrough k a b := by
  have hcell := t.cell k hk
  refine ⟨?_, fun i w => read_congr hs.placed t.sound.placed hcell i w⟩
  rw [t.sound.contents_eq, hs.contents_eq, hcell]

theorem sameThrough_refl : SameThrough k a a := ⟨rfl, fun _ _ => rfl⟩

theorem write_sameThrough (hs : a.Sound) (hne : k ≠ h) {i : Nat} {src : List UInt8} :
    SameThrough k a ((write h i src).after a) := by
  obtain ⟨e, live, hfit, hok⟩ | ⟨f, hfail⟩ := write_cases hs.placed h i src
  · rw [ArenaM.after_of_ok hok]
    have hr : Rewrites {h} a
        { a with region := a.region.overwrite (e.address + i * src.length) src } :=
      overwrite_row hs live (Nat.le_add_right ..) (by omega)
    exact hr.toTouches.sameThrough hs hne
  · rw [ArenaM.after_of_error hfail]
    exact sameThrough_refl

theorem copyContents_sameThrough (hs : a.Sound) (hne : k ≠ h) {src : Handle} :
    SameThrough k a ((copyContents src h).after a) := by
  obtain ⟨e, f, live, live', hle, hok⟩ | ⟨f, hfail⟩ := copyContents_cases (h := src) (k := h) hs.placed
  · rw [ArenaM.after_of_ok hok]
    have hlen := Region.length_run (hs.inside (entry_eq_ok_iff.mp live).1)
    have hr : Rewrites {h} a
        { a with region := a.region.overwrite f.address (a.region.run e.address e.capacity) } :=
      overwrite_row hs live' (Nat.le_refl _) (by omega)
    exact hr.toTouches.sameThrough hs hne
  · rw [ArenaM.after_of_error hfail]
    exact sameThrough_refl

/-- In every arena that calls lead to, the rows tile the region, the counts are exact, and a write
or a copy into one entity is seen through no other handle. -/
theorem rows_tile_region (reached : Reachable limit a) :
    Tiled limit a ∧ Counted a ∧
      (∀ h k i src, k ≠ h → SameThrough k a ((write h i src).after a)) ∧
      ∀ src h k, k ≠ h → SameThrough k a ((copyContents src h).after a) := by
  obtain ⟨reach, hs⟩ := reached.reach
  obtain ⟨hlimit, hwhole⟩ := reach.whole (sound_empty limit) rfl
  refine ⟨⟨fun _ _ => hs.inside, fun _ _ _ _ => hs.apart, hwhole, ?_, hs.size_le, hs.freed_nodup,
    hs.mem_freed, ?_⟩, counted hs hwhole, fun h k i src hne => write_sameThrough hs hne,
    fun src h k hne => copyContents_sameThrough hs hne⟩
  · have hle := hs.length_le
    rwa [hlimit] at hle
  · rw [hs.mem_freed_iff]
    exact fun hzero => hzero.2 hs.live_zero

/-- Storage of 32 bytes is freed and taken into use for 16, and an array that does not fit below the
limit is asked for. -/
theorem rows_tile_region_reused :
    let a := (Call.newArray 4).run.after ((Call.newArray 1).run.after ((Call.free 1).run.after
      ((Call.allocate 32 .string).run.after (.empty 64))))
    Reachable 64 a ∧ a.usage = ⟨1, 0, 32, 1⟩ ∧ a.region.length = 32 ∧ Tiled 64 a ∧ Counted a := by
  have reached : Reachable 64 _ :=
    (((Reachable.fresh.call (.allocate 32 .string)).call (.free 1)).call (.newArray 1)).call
      (.newArray 4)
  obtain ⟨tiled, counted, -⟩ := rows_tile_region reached
  exact ⟨reached, by decide +kernel, by decide +kernel, tiled, counted⟩

end BankedMemory.Arena
