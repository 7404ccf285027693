import BankedMemory.Proofs.Checkpoint.Snapshot

/-!
# Windows stay inside their storage

A new array starts at the beginning of its entity and ends below the words' end, so the start of
every window taken out of it is a word: narrowing is exact in the arithmetic of integers. And
whatever the client does later, the entity has all the slots the array was made with, also when a
restore gave it the storage of a copy, which may be longer: `windows_stay_inside`. So an access to
an element finds its storage.
-/

namespace BankedMemory

/-- Narrowing the view fails exactly where the window would reach outside, and otherwise every sum
is a word. -/
structure View.NarrowsExactly (w : View) : Prop where
  fits : w.offset.toNat + w.size.toNat < UInt32.size
  succeeds : ∀ offset size, w.Encloses offset size → ∃ u,
    (Object.composite .array w).narrow offset size = .ok (.composite .array u) ∧ u.ent = w.ent ∧
      (u.offset.toNat : Int) = w.offset.toNat + offset.toInt ∧ (u.size.toNat : Int) = size.toInt
  refuses : ∀ offset size, ¬w.Encloses offset size → ∃ f,
    (Object.composite .array w).narrow offset size = .error f ∧ f.report.condition = .rangeCheck
  /-- Two windows, one out of the other, are one. -/
  joined : ∀ offset size offset' size' both p q,
    (Object.composite .array w).narrow offset size = .ok p → p.narrow offset' size' = .ok q →
      both.toInt = offset.toInt + offset'.toInt →
        (Object.composite .array w).narrow both size' = .ok q

/-- The entity has all the slots of the view, so an access to an element does not miss its storage:
it is read, and it is stored unless there is no room to keep the contents for the save level. -/
structure View.StaysInside (w : View) (a : Arena) : Prop where
  within : ∃ e, a.entry w.ent = .ok e ∧ (w.offset.toNat + w.size.toNat) * Slot.width ≤ e.capacity
  get : ∀ i, w.InRange i → ∃ x, Arena.arrayGet (.composite .array w) i a = .ok x
  put : ∀ i x, w.InRange i → (∃ b, Arena.arrayPut (.composite .array w) i x a = .ok () b) ∨
    ∃ f b, Arena.arrayPut (.composite .array w) i x a = .error f b ∧ a.OutOfStorage f

variable {extra : Prop} {terms : Terms} {limit : Nat} {h : History} {l : Ledger}
  {log : Nat → List Record} {a b : Arena} {v w : View} {o p : Object} {n : Nat}

/-! ## Windows of new arrays -/

theorem View.narrowsExactly (hfits : w.offset.toNat + w.size.toNat < UInt32.size) :
    w.NarrowsExactly where
  fits := hfits
  succeeds _ _ hin :=
    ⟨w.window _ _, Object.narrow_of_encloses hin (hin.start_lt hfits), rfl, hin.toNat_offset hfits,
      hin.toNat_size⟩
  refuses _ _ hnot := ⟨.windowGrows, Object.narrow_of_not_encloses hnot, rfl⟩
  joined _ _ _ _ _ _ _ hn hn' hboth := Object.narrow_narrow hn hn' hboth

/-- A new array starts at the beginning of its entity, in whatever arena it was made. -/
theorem Arena.exists_view_of_newArray (hnew : newArray n a = .ok o b) :
    ∃ v, o = .composite .array v ∧ v.offset = 0 := by
  unfold newArray at hnew
  split at hnew
  · cases hnew
    exact ⟨_, rfl, rfl⟩
  · split at hnew
    · cases hnew
    · obtain ⟨k, c, -, hnew⟩ := EStateM.exists_of_bind_ok hnew
      obtain ⟨_, d, -, hnew⟩ := EStateM.exists_of_bind_ok hnew
      cases hnew
      exact ⟨_, rfl, rfl⟩

theorem Object.WindowOf.narrowsExactly (hw : WindowOf o p) (hnew : Arena.newArray n a = .ok o b) :
    ∃ w, p = .composite .array w ∧ w.NarrowsExactly := by
  obtain ⟨v, rfl, hstart⟩ := Arena.exists_view_of_newArray hnew
  obtain ⟨w, rfl, -, hend⟩ := hw.array
  have hlt := v.size.toNat_lt
  rw [hstart, UInt32.toNat_zero, Nat.zero_add] at hend
  exact ⟨w, rfl, View.narrowsExactly (Nat.lt_of_le_of_lt hend hlt)⟩

/-! ## Windows of a client's arrays -/

namespace Account

/-- The entity of an array has the slots the array was made with. -/
theorem within (hA : Account terms h l log) (hv : v ∈ h.now.arrays) :
    ∃ e, h.now.arena.entry v.ent = .ok e ∧ v.size.toNat * Slot.width ≤ e.capacity := by
  have hs := hA.describes.sound
  rcases Nat.eq_zero_or_pos v.size.toNat with hzero | hpos
  · have hent := (hA.root v hv).2 (UInt32.toNat_inj.mp hzero)
    obtain ⟨e, he⟩ := hs.live_zero
    rw [hzero, hent]
    exact ⟨e, he, by omega⟩
  · -- the last slot of the array is one of the entity's
    obtain ⟨o, x, hx, hslot, -⟩ := hA.shows_now hA.base_le hv (Nat.sub_one_lt_of_lt hpos)
    obtain ⟨e, he, -⟩ := Arena.entry_of_cell hx
    have hlen := hs.placed.length_cell he hx
    unfold Arena.Cell.HasSlot at hslot
    rw [hlen, ← Nat.succ_mul, Nat.succ_eq_add_one, Nat.sub_add_cancel hpos] at hslot
    exact ⟨e, he, hslot⟩

theorem staysInside (hA : Account terms h l log) (hv : v ∈ h.now.arrays)
    (hw : Object.WindowOf (.composite .array v) (.composite .array w)) :
    w.StaysInside h.now.arena where
  within := by
    obtain ⟨e, he, hcap⟩ := hA.within hv
    obtain ⟨u, heq, hent, hend⟩ := hw.array
    cases heq
    rw [(hA.root v hv).1, UInt32.toNat_zero, Nat.zero_add] at hend
    rw [hent]
    exact ⟨e, he, Nat.le_trans (Nat.mul_le_mul_right _ hend) hcap⟩
  get i hi := by
    obtain ⟨u, heq, hent, hslots⟩ := hA.window hv hw
    cases heq
    obtain ⟨o, hshow⟩ := hA.shows_now hA.base_le hv (hslots i hi)
    rw [Arena.arrayGet_eq hi, hent]
    exact ⟨o, hshow.readSlot hA.describes.sound⟩
  put i x hi := by
    rcases hA.arrayPut_spec ⟨v, hv, hw⟩ i x with ⟨b, -, -, hrun, -⟩ | ⟨f, b, hrun, hout, -⟩
    · exact .inl ⟨b, hrun⟩
    · exact .inr ⟨f, b, hrun, hout w rfl hi⟩

end Account

/-- Of a window of an array, or of a window of one: it narrows exactly, in whatever arena the array
was made, and in every history of a client that made the array it stays inside the array's
storage. -/
theorem windows_stay_inside (hw : o.WindowOf p) :
    (∀ n a b, Arena.newArray n a = .ok o b → ∃ w, p = .composite .array w ∧ w.NarrowsExactly) ∧
    ∀ extra limit h, History.Run extra limit h → ∀ v ∈ h.now.arrays, o = .composite .array v →
      ∃ w, p = .composite .array w ∧ w.ent = v.ent ∧ w.StaysInside h.now.arena := by
  refine ⟨fun n a b hnew => hw.narrowsExactly hnew, fun extra limit h hr v hv ho => ?_⟩
  subst ho
  obtain ⟨l, log, hA⟩ := hr.account
  obtain ⟨w, rfl, hent, -⟩ := hw.array
  exact ⟨w, rfl, hent, hA.staysInside hv hw⟩

namespace History

/-- An array is made and a level opened. -/
def threeSaved : History := ((start 1000).step (.newArray 3)).step .save

/-- The array is stored to in the level, and the level is undone. -/
def threeRestored : History :=
  (threeSaved.step (.arrayPut (.composite .array { size := 3, ent := 1 }) 1 (.integer 5))).step .restore

theorem arrays_threeSaved : threeSaved.now.arrays = [{ size := 3, ent := 1 }] := by
  unfold threeSaved
  rw [arrays_step (by simp)]
  decide +kernel

theorem arrays_threeRestored : threeRestored.now.arrays = [{ size := 3, ent := 1 }] := by
  unfold threeRestored
  rw [arrays_step (by simp), arrays_step (by simp), arrays_threeSaved]

theorem run_threeRestored : threeRestored.Run extra 1000 := by
  have hv : ({ size := 3, ent := 1 } : View) ∈ threeSaved.now.arrays := by
    rw [arrays_threeSaved]
    exact List.mem_singleton_self _
  have hsaved : threeSaved.Run extra 1000 := .call (.call .start trivial) trivial
  exact .call (.call hsaved ⟨_, hv, .self⟩) trivial

end History

/-- The last two of three elements, and of these the first. -/
theorem windows_stay_inside_restored :
    View.NarrowsExactly { size := 1, ent := 1, offset := 1 } ∧
      View.StaysInside { size := 1, ent := 1, offset := 1 } History.threeRestored.now.arena := by
  have hlast : (Object.composite .array { size := 3, ent := 1 }).narrow 1 2 =
      .ok (.composite .array { size := 2, ent := 1, offset := 1 }) := rfl
  have hfirst : (Object.composite .array { size := 2, ent := 1, offset := 1 }).narrow 0 1 =
      .ok (.composite .array { size := 1, ent := 1, offset := 1 }) := rfl
  have hw : (Object.composite .array { size := 3, ent := 1 }).WindowOf
      (.composite .array { size := 1, ent := 1, offset := 1 }) :=
    .narrow (.narrow .self hlast) hfirst
  obtain ⟨hnarrow, hinside⟩ := windows_stay_inside hw
  constructor
  · obtain ⟨b, hnew⟩ : ∃ b, Arena.newArray 3 (.empty 1000) =
        .ok (.composite .array { size := 3, ent := 1 }) b := ⟨_, rfl⟩
    obtain ⟨w, heq, hw⟩ := hnarrow 3 _ b hnew
    cases heq
    exact hw
  · have hv : ({ size := 3, ent := 1 } : View) ∈ History.threeRestored.now.arrays := by
      rw [History.arrays_threeRestored]
      exact List.mem_singleton_self _
    obtain ⟨w, heq, -, hstay⟩ :=
      hinside False 1000 History.threeRestored History.run_threeRestored _ hv rfl
    cases heq
    exact hstay

end BankedMemory
