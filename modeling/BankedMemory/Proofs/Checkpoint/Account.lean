import BankedMemory.Proofs.Checkpoint.Log
import BankedMemory.Proofs.Client.History
import BankedMemory.Proofs.Client.Ledger
import BankedMemory.Proofs.Entity.Levels

/-!
# What is true all along

`Account` ties a client's history to the arena it came to. `Holdings` says who holds which row and
what is on the save stack and the stacks of records. `Memory` says where to read what an array held
when a level was opened, and that the stamp of an entity tells whether the current level has it
recorded. Every call keeps both.
-/

namespace BankedMemory

/-- The object on the save stack for level `k`. -/
def Ledger.level (l : Ledger) (k : Nat) : Object :=
  .save ⟨UInt32.ofNat (k + 1), (l.held (.records k)).headD 0⟩

/-- What is known of a client besides that it keeps to its own arrays and stacks. -/
structure Terms where
  /-- It may have an array recorded that it is not about to change. -/
  extra : Prop
  /-- That may be an array made since the last save, or it frees arrays. -/
  wide : Prop
  /-- The levels below this one are given up: nothing is said of what they would return to. -/
  base : Nat
  waived : base ≠ 0 → extra ∧ wide

/-- The terms of a client that frees no array and has only those recorded that were there when the
level was opened. -/
def Terms.plain (extra : Prop) : Terms := ⟨extra, False, 0, fun h => absurd rfl h⟩

/-- The level below level `base` is given up: it has a record of an array that the client had when
the level was opened and has no more. -/
def Abandoned (base : Nat) (past : List Client) (log : Nat → List Record) : Prop :=
  base ≠ 0 → ∃ b outer, b :: outer <:+ past ∧ outer.length + 1 = base ∧
    ∃ r ∈ log outer.length, r.source ∉ b.entities

/-- Who holds which row. `log k` are the records of level `k`, the earliest first. -/
structure Holdings (base : Nat) (h : History) (l : Ledger) (log : Nat → List Record) : Prop where
  describes : l.Describes h.now.arena
  array : l.held .array = h.now.entities
  root : ∀ v ∈ h.now.arrays, v.offset = 0 ∧ (v.size = 0 → v.ent = 0)
  stack : ∀ s ∈ h.now.liveStacks, (l.held (.stack s)).head? = some s.handle
  stackless : ∀ s, s ∉ h.now.liveStacks → l.held (.stack s) = []
  liveStacks_nodup : h.now.liveStacks.Nodup
  saves : h.now.arena.saves = (l.held .saves).head?
  saveless : l.held .saves = [] → h.past = []
  depth_le : h.past.length ≤ Mark.maxLevel.toNat
  levels : l.values .saves = (List.range h.past.length).map l.level
  opened : ∀ k < h.past.length, l.held (.records k) ≠ [] ∧ l.values (.records k) = (log k).map .record
  closed : ∀ k, h.past.length ≤ k → l.held (.records k) = [] ∧ log k = []
  copies : ∀ k, l.held (.copies k) = (log k).map (·.copy)
  older : (h.now.arrays :: h.past.map (·.arrays)).Pairwise fun d c => c <:+ d
  base_le : base ≤ h.past.length
  abandoned : Abandoned base h.past log
  /-- What is recorded is an array, or row 0. -/
  source : ∀ {k : Nat} {r : Record}, base ≤ k → r ∈ log k →
    r.source = 0 ∨ r.source ∈ h.now.entities

/-- What the arena keeps of the arrays for the levels that are open. -/
structure Memory (base : Nat) (h : History) (log : Nat → List Record) : Prop where
  readable : ∀ k, base ≤ k → k ≤ h.past.length → ∀ v ∈ h.now.arrays, ∀ i < v.size.toNat,
    ∃ o, h.now.arena.Shows (origin (since log k h.past.length) v.ent) i o
  kept : ∀ b outer, b :: outer <:+ h.past → base ≤ outer.length →
    ∀ v ∈ b.arrays, ∀ i < v.size.toNat, ∃ o, b.arena.readSlot v.ent i = .ok o ∧
      h.now.arena.Shows (origin (since log outer.length h.past.length) v.ent) i o
  stamped : ∀ b outer, b :: outer <:+ h.past → base ≤ outer.length → ∀ e ∈ h.now.entities,
    (outer.length < h.now.arena.stamp (origin (since log (outer.length + 1) h.past.length) e) ↔
      (∃ r ∈ log outer.length, r.source = e) ∨ e ∉ b.entities)
  below : ∀ k, h.now.arena.stamp k ≤ h.past.length

/-- Each level records arrays older than itself, and leaves what was live before it and not the
client's to the arena. -/
structure Enclosed (h : History) (l : Ledger) (log : Nat → List Record) : Prop where
  within : ∀ b outer, b :: outer <:+ h.past → ∀ r ∈ log outer.length,
    r.source = 0 ∨ r.source ∈ b.entities
  spared : ∀ b outer, b :: outer <:+ h.past → ∀ k, k ∉ l.held .saves →
    (b.arena.Live k ∧ ¬b.Owns k ↔ k = 0 ∨
      ∃ j < outer.length, k ∈ l.held (.records j) ∨ k ∈ l.held (.copies j))

/-- Everything together; without extra calls each level records an array once and never row 0. -/
structure Account (terms : Terms) (h : History) (l : Ledger) (log : Nat → List Record) : Prop extends
    Holdings terms.base h l log, Memory terms.base h log where
  enclosed : ¬terms.wide → Enclosed h l log
  once : ¬terms.extra → ∀ k, ((log k).map (·.source)).Nodup
  sourced : ¬terms.extra → ∀ k, ∀ r ∈ log k, r.source ≠ 0
  unstamped : ¬terms.extra → h.now.arena.stamp 0 = 0

/-- The terms of a client that may have any array recorded, or frees arrays. -/
def Terms.wider (base : Nat) : Terms := ⟨True, True, base, fun _ => ⟨trivial, trivial⟩⟩

theorem Terms.base_eq_zero {terms : Terms} (h : ¬terms.extra ∨ ¬terms.wide) : terms.base = 0 :=
  Decidable.byContradiction fun hne =>
    h.elim (fun hextra => hextra (terms.waived hne).1) fun hwide => hwide (terms.waived hne).2

variable {terms : Terms} {base : Nat} {h : History} {l l' : Ledger} {log : Nat → List Record}
  {a b : Arena} {k n : Nat} {e : Handle} {v : View} {o : Owner} {s : Stack}

/-- Every element of an array is there to be read. -/
theorem Memory.shows_now (hm : Memory base h log) (hbase : base ≤ h.past.length)
    (hv : v ∈ h.now.arrays) {i : Nat} (hi : i < v.size.toNat) :
    ∃ o, h.now.arena.Shows v.ent i o := by
  obtain ⟨o, hshow⟩ := hm.readable h.past.length hbase (Nat.le_refl _) v hv i hi
  rw [since_eq_nil (Nat.le_refl _), origin_nil] at hshow
  exact ⟨o, hshow⟩

/-- A change of the current client's side alone. -/
theorem Enclosed.move (he : Enclosed h l log) (now : Client) : Enclosed ⟨now, h.past⟩ l log :=
  ⟨he.within, he.spared⟩

theorem Client.mem_entities {c : Client} (hv : v ∈ c.arrays) (hsize : v.size ≠ 0) :
    v.ent ∈ c.entities :=
  List.mem_map_of_mem (List.mem_filter.mpr ⟨hv, by simpa using hsize⟩)

theorem size_ne_zero {i : Nat} (hi : i < v.size.toNat) : v.size ≠ 0 := by
  rintro h0
  rw [h0] at hi
  exact absurd hi (Nat.not_lt_zero i)

theorem Client.entities_subset {c d : Client} (hs : c.arrays <:+ d.arrays) (he : e ∈ c.entities) :
    e ∈ d.entities := by
  obtain ⟨v, hv, rfl⟩ := List.mem_map.mp he
  obtain ⟨hv, hsize⟩ := List.mem_filter.mp hv
  exact Client.mem_entities (hs.subset hv) (by simpa using hsize)

/-- Segments are never stamped. -/
theorem Ledger.Describes.stamp_of_segment (hl : l.Describes a) (ho : o.IsStack) (he : e ∈ l.held o) :
    a.stamp e = 0 := by
  obtain ⟨x, hx⟩ := Arena.live_iff_cell.mp (hl.live_of_mem he)
  rw [Arena.stamp_of_cell hx, hl.mark_of_segment ho he hx]
  exact congrArg UInt32.toNat Mark.topLevel_blank

theorem depth_of_suffix {b : Client} {outer past : List Client} (hs : b :: outer <:+ past) :
    outer.length < past.length := by
  have := hs.length_le
  rw [List.length_cons] at this
  omega

/-- The level opened last is an open level. -/
theorem innermost {d : Client} {past rest : List Client} (hp : past = d :: rest) :
    d :: rest <:+ past :=
  hp ▸ List.suffix_refl _

theorem suffix_of_inner {c d : Client} {outer past rest : List Client} (hp : past = d :: rest)
    (hs : c :: outer <:+ rest) : c :: outer <:+ past :=
  hp ▸ hs.trans (List.suffix_cons ..)

namespace Holdings

theorem arrays_suffix (hh : Holdings base h l log) {b : Client} {outer : List Client}
    (hs : b :: outer <:+ h.past) : b.arrays <:+ h.now.arrays :=
  (List.pairwise_cons.mp hh.older).1 _ (List.mem_map_of_mem (hs.subset List.mem_cons_self))

/-- No array is forgotten while a level is open. -/
theorem arrays_suffix_past (hh : Holdings base h l log) {b c : Client} {outer rest : List Client}
    (hp : h.past = c :: rest) (hs : b :: outer <:+ h.past) : b.arrays <:+ c.arrays := by
  have hpast := (List.pairwise_cons.mp hh.older).2
  rw [hp, List.map_cons] at hpast
  rw [hp] at hs
  rcases List.suffix_cons_iff.mp hs with heq | hs
  · cases heq
    exact List.suffix_refl _
  · exact (List.pairwise_cons.mp hpast).1 _ (List.mem_map_of_mem (hs.subset List.mem_cons_self))

/-- The arrays made since a save have entities of their own. -/
theorem entity_since (hh : Holdings base h l log) {saved : Client} {new : List View}
    (hnew : new ++ saved.arrays = h.now.arrays) (hv : v ∈ new) (hsize : v.size ≠ 0) :
    v.ent ∉ saved.entities := by
  have hnodup := hh.describes.nodup .array
  rw [hh.array, Client.entities, ← hnew, List.filter_append, List.map_append] at hnodup
  obtain ⟨-, -, hdisjoint⟩ := List.nodup_append.mp hnodup
  refine fun hmem => hdisjoint v.ent ?_ v.ent hmem rfl
  exact List.mem_map_of_mem (List.mem_filter.mpr ⟨hv, by simpa using hsize⟩)

theorem log_closed (hh : Holdings base h l log) {r : Record} (hr : r ∈ log k) : k < h.past.length := by
  rcases Nat.lt_or_ge k h.past.length with hlt | hge
  · exact hlt
  · rw [(hh.closed k hge).2] at hr
    cases hr

theorem mem_copies (hh : Holdings base h l log) {r : Record} (hr : r ∈ log k) :
    r.copy ∈ l.held (.copies k) := by
  rw [hh.copies]
  exact List.mem_map_of_mem hr

theorem copy_ne_zero (hh : Holdings base h l log) {r : Record} (hr : r ∈ log k) : r.copy ≠ 0 :=
  hh.describes.ne_zero (hh.mem_copies hr)

theorem copy_not_entity (hh : Holdings base h l log) {r : Record} (hr : r ∈ log k) :
    r.copy ∉ h.now.entities := by
  rw [← hh.array]
  exact hh.describes.not_mem_of_ne (hh.mem_copies hr) (by simp)

/-- No copy is recorded in turn. -/
theorem source_ne_copy (hh : Holdings base h l log) {j : Nat} {q r : Record} (hj : base ≤ j)
    (hq : q ∈ log j) (hr : r ∈ log k) : q.source ≠ r.copy := fun heq => by
  rcases hh.source hj hq with h0 | hmem
  · exact hh.copy_ne_zero hr (heq ▸ h0)
  · exact hh.copy_not_entity hr (heq ▸ hmem)

theorem cell_entity (hh : Holdings base h l log) (he : e ∈ h.now.entities) :
    ∃ x, h.now.arena.cell e = some x := by
  rw [← hh.array] at he
  exact Arena.live_iff_cell.mp (hh.describes.live_of_mem he)

theorem cell_copy (hh : Holdings base h l log) {r : Record} (hr : r ∈ log k) :
    ∃ x, h.now.arena.cell r.copy = some x :=
  Arena.live_iff_cell.mp (hh.describes.live_of_mem (hh.mem_copies hr))

/-- What a level has of an array is in a live row. -/
theorem cell_origin (hh : Holdings base h l log) (he : e ∈ h.now.entities) (k n : Nat) :
    ∃ x, h.now.arena.cell (origin (since log k n) e) = some x := by
  rcases origin_since_cases log k n e with hself | ⟨j, r, hr, -, hcopy⟩
  · rw [hself]
    exact hh.cell_entity he
  · rw [hcopy]
    exact hh.cell_copy hr

theorem no_values (hh : Holdings base h l log) (hnil : l.held .saves = []) : l.values .saves = [] := by
  rw [hh.levels, hh.saveless hnil]
  rfl

theorem depth_eq (hh : Holdings base h l log) :
    h.now.arena.depth = .ok (UInt32.ofNat h.past.length) := by
  rw [hh.describes.depth_eq hh.saves hh.no_values, hh.levels, List.length_map, List.length_range]

theorem toNat_depth (hh : Holdings base h l log) :
    (UInt32.ofNat h.past.length).toNat = h.past.length := by
  have := hh.depth_le
  simp only [Mark.maxLevel, UInt32.reduceToNat] at this
  rw [UInt32.toNat_ofNat']
  omega

theorem level_le (hh : Holdings base h l log) : UInt32.ofNat h.past.length ≤ Mark.maxLevel := by
  rw [UInt32.le_iff_toNat_le, hh.toNat_depth]
  exact hh.depth_le

/-- The number of the level that a save would open. -/
theorem nextLevel_eq (hh : Holdings base h l log) :
    h.now.arena.nextLevel = .ok (UInt32.ofNat (h.past.length + 1)) := by
  have hle := hh.depth_le
  have hlast : UInt32.ofNat h.past.length ≠ 0xFFFFFFFF := fun heq => by
    have hcount := hh.toNat_depth
    rw [heq] at hcount
    simp only [Mark.maxLevel, UInt32.reduceToNat] at hle hcount
    omega
  unfold Arena.nextLevel
  rw [bind_eq_of_ok hh.depth_eq, UInt32.ofNat_add]
  exact if_neg hlast

/-- A level that is open has a number. -/
theorem depth_ne_zero (hh : Holdings base h l log) (hopen : 0 < h.past.length) :
    UInt32.ofNat h.past.length ≠ 0 := fun hzero => by
  have hcount := hh.toNat_depth
  rw [hzero, UInt32.toNat_zero] at hcount
  omega

theorem saves_ne_nil (hh : Holdings base h l log) (hopen : 0 < h.past.length) : l.held .saves ≠ [] :=
  fun hnil => by
    rw [hh.saveless hnil] at hopen
    exact absurd hopen (Nat.lt_irrefl 0)

theorem saves_head (hh : Holdings base h l log) (hne : l.held .saves ≠ []) :
    (l.held .saves).head? = some h.now.arena.saveStack.handle := by
  unfold Arena.saveStack
  rw [hh.saves]
  cases hheld : l.held .saves with
  | nil => exact absurd hheld hne
  | cons seg rows => rfl

theorem records_head (hh : Holdings base h l log) (hk : k < h.past.length) :
    (l.held (.records k)).head? = some ((l.held (.records k)).headD 0) := by
  obtain ⟨hne, -⟩ := hh.opened k hk
  cases hheld : l.held (.records k) with
  | nil => exact absurd hheld hne
  | cons seg rows => rfl

/-- What the client owns is what the ledger says. -/
theorem owns_iff (hh : Holdings base h l log) (k : Handle) :
    h.now.Owns k ↔ k ∈ l.held .array ∨ ∃ s, k ∈ l.held (.stack s) := by
  rw [hh.array]
  refine or_congr_right ⟨?_, ?_⟩
  · rintro ⟨s, hs, segs, hchain, hk⟩
    have hd := hh.stack s hs
    have hl := hh.describes.laid_of_head (o := .stack s) trivial hd
    rw [hl.chain_eq hh.describes.sound hd] at hchain
    cases hchain
    exact ⟨s, hk⟩
  · rintro ⟨s, hk⟩
    have hs : s ∈ h.now.liveStacks := Decidable.byContradiction fun hs => by
      rw [hh.stackless s hs] at hk
      cases hk
    have hd := hh.stack s hs
    have hl := hh.describes.laid_of_head (o := .stack s) trivial hd
    exact ⟨s, hs, _, hl.chain_eq hh.describes.sound hd, hk⟩

end Holdings

/-- Where an array has the stamp of the current level, its old contents are in a copy. -/
theorem Account.moved (hA : Account terms h l log) (he : h.now.arena.stamp e = h.past.length)
    {c : Client} {outer : List Client} (hs : c :: outer <:+ h.past)
    (hbase : terms.base ≤ outer.length) (hc : e ∈ c.entities) :
    origin (since log outer.length h.past.length) e ≠ e := by
  have hnow := Client.entities_subset (hA.arrays_suffix hs) hc
  obtain ⟨d, rest, hp⟩ : ∃ d rest, h.past = d :: rest := by
    cases hp : h.past with
    | nil =>
      rw [hp] at hs
      exact absurd hs (by simp)
    | cons d rest => exact ⟨d, rest, rfl⟩
  have hlen : h.past.length = rest.length + 1 := by rw [hp, List.length_cons]
  have hk := depth_of_suffix hs
  have hstamped := hA.stamped d rest (innermost hp) (by omega) e hnow
  rw [since_eq_nil (by omega), origin_nil, he] at hstamped
  have hd : e ∈ d.entities := Client.entities_subset (hA.arrays_suffix_past hp hs) hc
  rcases hstamped.mp (by omega) with ⟨r, hr, hsource⟩ | hnot
  · have hmem : r ∈ since log outer.length h.past.length :=
      mem_since.mpr ⟨rest.length, by omega, by omega, hr⟩
    obtain ⟨q, hq, -, hcopy⟩ := origin_of_source hmem hsource
    obtain ⟨j, -, -, hq⟩ := mem_since.mp hq
    rw [hcopy]
    rintro rfl
    exact hA.copy_not_entity hq hnow
  · exact absurd hd hnot

/-! ## The start -/

theorem stamp_empty (limit : Nat) (k : Handle) : (Arena.empty limit).stamp k = 0 := by
  rcases eq_or_ne k 0 with rfl | hk
  · have hrow : (Arena.empty limit).table[(0 : Handle).toNat]? = some .reserved := rfl
    rw [Arena.stamp_of_cell (Arena.cell_eq_of_row hrow (by simp [Entry.reserved]))]
    exact congrArg UInt32.toNat Mark.topLevel_blank
  · exact Arena.stamp_of_none (Arena.cell_empty.mpr hk)

theorem account_start (hbase : terms.base = 0) (limit : Nat) :
    Account terms (.start limit) .empty fun _ => [] where
  describes := Ledger.describes_empty limit
  array := rfl
  root v hv := absurd hv List.not_mem_nil
  stack s hs := absurd hs List.not_mem_nil
  stackless _ _ := rfl
  liveStacks_nodup := List.nodup_nil
  saves := rfl
  saveless _ := rfl
  depth_le := Nat.zero_le _
  levels := rfl
  opened k hk := absurd hk (Nat.not_lt_zero k)
  closed _ _ := ⟨rfl, rfl⟩
  copies _ := rfl
  older := List.pairwise_singleton ..
  base_le := Nat.le_of_eq hbase
  abandoned hne := absurd hbase hne
  source _ hr := absurd hr List.not_mem_nil
  readable k _ _ v hv := absurd hv List.not_mem_nil
  kept _ _ hs := absurd hs (by simp [History.start])
  stamped _ _ hs := absurd hs (by simp [History.start])
  below k := Nat.le_of_eq (stamp_empty limit k)
  enclosed _ := ⟨fun _ _ hs => absurd hs (by simp [History.start]),
    fun _ _ hs => absurd hs (by simp [History.start])⟩
  once _ _ := List.nodup_nil
  sourced _ _ _ hr := absurd hr List.not_mem_nil
  unstamped _ := stamp_empty limit 0

end BankedMemory
