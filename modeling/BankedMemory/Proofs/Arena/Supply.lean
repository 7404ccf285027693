import BankedMemory.Proofs.Arena.Effects

/-!
# Taking and giving back storage

`allocate_spec`: storage is found under a handle that was not live, and it is clean, or the arena is
left as it is. `free_spec`: a handle given back shows nothing any more. No other cell changes.
-/

namespace BankedMemory.Arena

variable {a b : Arena} {h k : Handle} {x : Cell} {e : Entry}

/-- Storage has run out: the client gets a VM error. Only under a limit above what a region can have
does the program stop instead. -/
def OutOfStorage (a : Arena) (f : Fault) : Prop :=
  f.report.condition = .vmError ∨ longestRegion < a.limit ∧ f.stops

/-- What the client reads when storage has run out. -/
theorem OutOfStorage.condition {f : Fault} (hout : a.OutOfStorage f) :
    f.report.condition = .vmError ∨ f.report.condition = .panic :=
  hout.imp_right fun hlong => beq_iff_eq.mp hlong.2

theorem OutOfStorage.congr {f : Fault} (hout : b.OutOfStorage f) (hlimit : b.limit = a.limit) :
    a.OutOfStorage f := by
  unfold OutOfStorage at *
  rwa [← hlimit]

theorem reuse_eq (hrow : a.table[h.toNat]? = some e) (content : Content) :
    a.reuse h content = { a with
      region := a.region.clear e.address e.capacity
      table := a.table.modify h.toNat fun e => { e with mark := .blank, kind := .used content }
      freed := a.freed.erase h } := by
  obtain ⟨region, table, freed, limit, collectable, saves⟩ := a
  simp only [reuse] at *
  rw [hrow]

theorem append_eq (size : Nat) (content : Content) :
    a.append size content = { a with
      region := a.region.resize (a.region.length + size)
      table := a.table.push ⟨a.region.length, size, .blank, .used content⟩ } := by
  obtain ⟨region, table, freed, limit, collectable, saves⟩ := a
  rfl

theorem reuse_spec (hs : a.Sound) (hrow : a.table[h.toNat]? = some e) (hk : e.kind = .free)
    (content : Content) :
    Touches {h} a (a.reuse h content) ∧
      (a.reuse h content).cell h = some ⟨List.replicate e.capacity 0, .blank, .used content⟩ := by
  rw [reuse_eq hrow]
  have hin := hs.inside hrow
  have hlen : (a.region.clear e.address e.capacity).length = a.region.length :=
    Region.length_overwrite ..
  have hne : h.toNat ≠ 0 := fun h0 => by
    have := (hs.reserved hrow).mpr h0
    rw [hk] at this
    cases this
  have hget := getElem?_modify_row
    (fun e => { e with mark := .blank, kind := .used content }) hrow
  constructor
  · refine ⟨hs.of_rows rfl hlen (Array.size_modify ..) id (fun _ _ => id) ?_ ?_
      (hs.freed_nodup.erase h) ?_, fun k hkh => cell_congr ?_ fun f hf => ?_, rfl, rfl⟩
    · intro i e' hi
      simp only [hget] at hi
      split at hi
      · next heq => cases hi; exact ⟨e, heq ▸ hrow, rfl, rfl⟩
      · exact ⟨e', hi, rfl, rfl⟩
    · intro i e' hi
      simp only [hget] at hi
      split at hi
      · next heq =>
        cases hi
        simp only [reduceCtorEq, false_iff]
        omega
      · exact hs.reserved hi
    · intro k
      simp only [hget]
      rw [hs.freed_nodup.mem_erase_iff, hs.mem_freed]
      rcases eq_or_ne k h with rfl | hkh
      · simp
      · rw [if_neg (toNat_ne hkh)]
        simp [hkh]
    · simp only [hget]
      rw [if_neg (toNat_ne hkh)]
    · refine Region.run_clear_apart ?_
      have := hs.apart (toNat_ne hkh) hf hrow
      unfold Apart at this
      omega
  · refine Eq.trans (cell_eq_of_row (e := { e with mark := .blank, kind := .used content }) ?_
      (by simp)) ?_
    · simp [hget]
    · simp only
      rw [Region.run_clear_self hin]

section Append

variable {size : Nat}

/-- The rows there were, and the new one behind them. -/
theorem row_append (content : Content) (i : Nat) (e' : Entry)
    (hi : (a.append size content).table[i]? = some e') :
    (i = a.table.size ∧ e' = ⟨a.region.length, size, .blank, .used content⟩) ∨
      a.table[i]? = some e' := by
  rw [append_eq] at hi
  simp only at hi
  rw [Array.getElem?_push] at hi
  split at hi
  · next heq =>
    cases hi
    exact .inl ⟨heq, rfl⟩
  · exact .inr hi

variable (hs : a.Sound) (hlimit : a.region.length + size ≤ a.limit)
  (hregion : a.region.length + size ≤ longestRegion)

include hs hlimit hregion

theorem sound_append (hroom : a.table.size < 0x100000000) (content : Content) :
    (a.append size content).Sound := by
  have hrow := fun i e' (hi : (a.append size content).table[i]? = some e') =>
    row_append content i e' hi
  rw [append_eq] at hrow ⊢
  have hpos := hs.size_pos
  have hlen : (a.region.resize (a.region.length + size)).length = a.region.length + size :=
    Region.length_resize ..
  refine ⟨?_, ?_, ?_, ?_, ?_, ?_, ?_, hs.freed_nodup, ?_⟩
  · simp only
    rw [hlen]
    exact hregion
  · simp only
    rw [hlen]
    exact hlimit
  · simp
  · simp only [Array.size_push]
    omega
  · intro i e' hi
    simp only
    rw [hlen]
    rcases hrow i e' hi with ⟨-, rfl⟩ | hi
    · exact Nat.le_refl _
    · have := hs.inside hi
      omega
  · intro i j e' f' hij hi hj
    rcases hrow i e' hi with ⟨rfl, rfl⟩ | hi <;> rcases hrow j f' hj with ⟨rfl, rfl⟩ | hj
    · exact absurd rfl hij
    · exact Or.inr (hs.inside hj)
    · exact Or.inl (hs.inside hi)
    · exact hs.apart hij hi hj
  · intro i e' hi
    rcases hrow i e' hi with ⟨rfl, rfl⟩ | hi
    · simp only [reduceCtorEq, false_iff]
      omega
    · exact hs.reserved hi
  · intro k
    rw [hs.mem_freed]
    constructor
    · rintro ⟨e', he', hk⟩
      have hlt := (Array.getElem?_eq_some_iff.mp he').1
      refine ⟨e', ?_, hk⟩
      simp only
      rw [Array.getElem?_push, if_neg (by omega), he']
    · rintro ⟨e', he', hk⟩
      rcases hrow _ e' he' with ⟨-, rfl⟩ | he'
      · cases hk
      · exact ⟨e', he', hk⟩

theorem append_spec (hroom : a.table.size < 0x100000000) (content : Content) :
    a.cell (UInt32.ofNat a.table.size) = none ∧
      Touches {UInt32.ofNat a.table.size} a (a.append size content) ∧
      (a.append size content).cell (UInt32.ofNat a.table.size) =
        some ⟨List.replicate size 0, .blank, .used content⟩ := by
  have hsound := sound_append hs hlimit hregion hroom content
  rw [append_eq] at hsound ⊢
  have hnew : (UInt32.ofNat a.table.size).toNat = a.table.size := UInt32.toNat_ofNat_of_lt' hroom
  refine ⟨?_, ⟨hsound, fun k hk => cell_congr ?_ ?_, rfl, rfl⟩, ?_⟩
  · rw [cell_eq_none_iff]
    rintro ⟨e', he'⟩
    have hlt := (Array.getElem?_eq_some_iff.mp (entry_eq_ok_iff.mp he').1).1
    omega
  · simp only
    have hkn : k.toNat ≠ a.table.size := by
      rw [← hnew]
      exact toNat_ne hk
    rw [Array.getElem?_push, if_neg hkn]
  · intro e' he'
    have := hs.inside he'
    exact Region.run_resize (by omega) (by omega)
  · refine Eq.trans (cell_eq_of_row (e := ⟨a.region.length, size, .blank, .used content⟩) ?_
      (by simp)) ?_
    · simp only
      rw [hnew, Array.getElem?_push, if_pos rfl]
    · simp only
      rw [Region.run_resize_new]

end Append

/-- Why no row of `size` bytes is added at the end of the region. -/
inductive Refuses (a : Arena) (size : Nat) : Fault → Prop where
  | overflow (noWord : 0x10000000000000000 ≤ a.region.length + size) : Refuses a size .overflow
  | arenaFull (word : a.region.length + size < 0x10000000000000000)
      (above : a.limit < a.region.length + size) : Refuses a size .arenaFull
  | tableFull (within : a.region.length + size ≤ a.limit) (rows : 0x100000000 ≤ a.table.size) :
      Refuses a size .tableFull
  | regionTooLong (within : a.region.length + size ≤ a.limit)
      (long : longestRegion < a.region.length + size) : Refuses a size .regionTooLong

theorem Refuses.outOfStorage {size : Nat} {f : Fault} (refuses : Refuses a size f)
    (word : a.region.length + size < 0x10000000000000000) : OutOfStorage a f := by
  cases refuses with
  | overflow noWord => exact absurd word (Nat.not_lt.mpr noWord)
  | arenaFull | tableFull => exact .inl rfl
  | regionTooLong within long => exact .inr ⟨Nat.lt_of_lt_of_le long within, rfl⟩

/-- A free row with room is taken, the one freed earliest, or else a row is added where the region
ends. If neither can be done nothing changes. -/
theorem allocate_cases (hs : a.Sound) (size : Nat) (content : Content) :
    (∃ h e, a.freed.find? (a.hasRoom size) = some h ∧ a.table[h.toNat]? = some e ∧
      e.kind = .free ∧ size ≤ e.capacity ∧
      allocate size content a = .ok h (a.reuse h content)) ∨
    a.freed.find? (a.hasRoom size) = none ∧
      ((a.region.length + size ≤ a.limit ∧ a.region.length + size ≤ longestRegion ∧
        a.table.size < 0x100000000 ∧
        allocate size content a = .ok (UInt32.ofNat a.table.size) (a.append size content)) ∨
      ∃ f, allocate size content a = .error f a ∧ Refuses a size f) := by
  unfold allocate
  cases hfind : a.freed.find? (a.hasRoom size) with
  | some h =>
    obtain ⟨e, hrow, hk⟩ := (hs.mem_freed h).mp (List.mem_of_find?_eq_some hfind)
    have hroom := List.find?_some hfind
    unfold hasRoom at hroom
    rw [hrow] at hroom
    exact .inl ⟨h, e, rfl, hrow, hk, by simpa using hroom, rfl⟩
  | none =>
    refine .inr ⟨rfl, ?_⟩
    unfold addWords
    simp only
    by_cases hword : a.region.length + size < 0x10000000000000000
    · rw [if_pos hword]
      simp only
      by_cases hlimit : a.limit < a.region.length + size
      · rw [if_pos hlimit]
        exact .inr ⟨_, rfl, .arenaFull hword hlimit⟩
      rw [if_neg hlimit]
      have hwithin := Nat.le_of_not_lt hlimit
      by_cases hrows : 0x100000000 ≤ a.table.size
      · rw [if_pos hrows]
        exact .inr ⟨_, rfl, .tableFull hwithin hrows⟩
      rw [if_neg hrows]
      by_cases hlong : longestRegion < a.region.length + size
      · rw [if_pos hlong]
        exact .inr ⟨_, rfl, .regionTooLong hwithin hlong⟩
      · rw [if_neg hlong]
        exact .inl ⟨hwithin, Nat.le_of_not_lt hlong, Nat.lt_of_not_le hrows, rfl⟩
    · rw [if_neg hword]
      exact .inr ⟨_, rfl, .overflow (Nat.le_of_not_lt hword)⟩

theorem allocate_spec (hs : a.Sound) {size : Nat} (hsize : size ≤ longestRegion)
    (content : Content) :
    (∃ h b, allocate size content a = .ok h b ∧ h ≠ 0 ∧ a.cell h = none ∧ Touches {h} a b ∧
      ∃ n, size ≤ n ∧ b.cell h = some ⟨List.replicate n 0, .blank, .used content⟩) ∨
    ∃ f, allocate size content a = .error f a ∧ OutOfStorage a f := by
  have hr : a.region.length ≤ 0x7FFFFFFFFFFFFFFF := hs.region_le
  have hn : size ≤ 0x7FFFFFFFFFFFFFFF := hsize
  have hlive : ∀ h : Handle, a.cell h = none → h ≠ 0 := by
    rintro h hdead rfl
    exact cell_eq_none_iff.mp hdead hs.live_zero
  rcases allocate_cases hs size content with
    ⟨h, e, -, hrow, hk, hcap, hok⟩ | ⟨-, ⟨hgrow, hregion, hroom, hok⟩ | ⟨f, hfail, refuses⟩⟩
  · have hdead := cell_eq_none_of_free hrow hk
    obtain ⟨ht, hcell⟩ := reuse_spec hs hrow hk content
    exact .inl ⟨h, _, hok, hlive h hdead, hdead, ht, e.capacity, hcap, hcell⟩
  · obtain ⟨hdead, ht, hcell⟩ := append_spec hs hgrow hregion hroom content
    exact .inl ⟨_, _, hok, hlive _ hdead, hdead, ht, size, Nat.le_refl _, hcell⟩
  · exact .inr ⟨f, hfail, refuses.outOfStorage (by omega)⟩

theorem allocateCollectable_spec (hs : a.Sound) {size : Nat} (hsize : size ≤ longestRegion)
    (content : Content) :
    (∃ h b, allocateCollectable size content a = .ok h b ∧ h ≠ 0 ∧ a.cell h = none ∧
      Touches {h} a b ∧
      ∃ n, size ≤ n ∧ b.cell h = some ⟨List.replicate n 0, .blank, .used content⟩) ∨
    ∃ f, allocateCollectable size content a = .error f a ∧ OutOfStorage a f := by
  unfold allocateCollectable
  rcases allocate_spec hs hsize content with ⟨h, b, hok, hne, hdead, ht, n, hn, hc⟩ | ⟨f, hf, hv⟩
  · -- counting the allocation changes no row and no byte
    refine .inl ⟨h, { b with collectable := b.collectable + 1 }, ?_, hne, hdead,
      ⟨⟨ht.sound.region_le, ht.sound.length_le, ht.sound.size_pos, ht.sound.size_le,
        ht.sound.inside, ht.sound.apart, ht.sound.reserved, ht.sound.freed_nodup,
        ht.sound.mem_freed⟩, ht.cell, ht.saves, ht.limit⟩, n, hn, hc⟩
    rw [EStateM.bind_of_ok hok]
    rfl
  · exact .inr ⟨f, EStateM.bind_of_error hf, hv⟩

theorem free_spec (hs : a.Sound) (hne : h ≠ 0) (hc : a.cell h = some x) :
    ∃ b, free h a = .ok () b ∧ Rewrites {h} a b ∧ b.cell h = none := by
  obtain ⟨e, he, rfl⟩ := entry_of_cell hc
  obtain ⟨hrow, hk⟩ := entry_eq_ok_iff.mp he
  have hget := getElem?_modify_row (fun e => { e with kind := .free }) hrow
  have h0 : h.toNat ≠ 0 := toNat_ne (k := 0) hne
  refine ⟨{ a with
      table := a.table.modify h.toNat fun e => { e with kind := .free }
      freed := a.freed ++ [h] }, ?_,
    ⟨⟨hs.of_rows rfl rfl (Array.size_modify ..) id (fun _ _ => id) ?_ ?_ ?_ ?_,
      fun k hkh => cell_congr ?_ fun _ _ => rfl, rfl, rfl⟩, rfl, Array.size_modify ..⟩, ?_⟩
  · unfold free
    rw [he]
    simp only
    rw [if_neg fun hres => h0 ((hs.reserved hrow).mp hres)]
  · intro i e' hi
    simp only [hget] at hi
    split at hi
    · next heq => cases hi; exact ⟨e, heq ▸ hrow, rfl, rfl⟩
    · exact ⟨e', hi, rfl, rfl⟩
  · intro i e' hi
    simp only [hget] at hi
    split at hi
    · next heq =>
      cases hi
      simp only [reduceCtorEq, false_iff]
      omega
    · exact hs.reserved hi
  · have hnew : h ∉ a.freed := fun hmem => by
      obtain ⟨f, hf, hfk⟩ := (hs.mem_freed h).mp hmem
      rw [hrow] at hf
      cases hf
      exact hk hfk
    refine List.nodup_append.mpr ⟨hs.freed_nodup, by simp, fun k hkf j hj heq => ?_⟩
    rw [List.mem_singleton] at hj
    subst hj heq
    exact hnew hkf
  · intro k
    simp only [hget, List.mem_append, List.mem_singleton]
    rw [hs.mem_freed]
    rcases eq_or_ne k h with rfl | hkh
    · simp
    · rw [if_neg (toNat_ne hkh)]
      simp [hkh]
  · simp only [hget]
    rw [if_neg (toNat_ne hkh)]
  · refine cell_eq_none_of_free (e := { e with kind := .free }) ?_ rfl
    simp [hget]

end BankedMemory.Arena
