import BankedMemory.Proofs.Client.Runs

/-!
# Restore returns to the save

`restore_returns_to_save`: after a restore the arrays that existed at the matching save read as they
did just before it, the arrays made since read as they did just before the restore, and no stack of
the client has changed.
-/

namespace BankedMemory

variable {extra : Prop} {terms : Terms} {limit : Nat} {h : History} {l l' : Ledger}
  {log : Nat → List Record}
  {a b : Arena} {v w : View} {i : Int32} {saved : Client} {outer : List Client}

/-- Both arenas give the same object for every index of an array, and refuse all other indices. -/
def Arena.SameElements (v : View) (a b : Arena) : Prop :=
  ∀ i, (v.InRange i → ∃ o, Arena.arrayGet (.composite .array v) i a = .ok o ∧
      Arena.arrayGet (.composite .array v) i b = .ok o) ∧
    (¬v.InRange i →
      Arena.arrayGet (.composite .array v) i a = .error (.indexOutOfRange "array_get") ∧
      Arena.arrayGet (.composite .array v) i b = .error (.indexOutOfRange "array_get"))

theorem Arena.arrayGet_eq (hi : v.InRange i) :
    arrayGet (.composite .array v) i a = a.readSlot v.ent (v.offset.toNat + i.toUInt32.toNat) := by
  have hview : (Object.composite .array v).array? "array_get" = .ok v := rfl
  unfold arrayGet
  rw [bind_eq_of_ok hview, bind_eq_of_ok (View.slot_eq hi)]

theorem Arena.arrayGet_error (hi : ¬v.InRange i) :
    arrayGet (.composite .array v) i a = .error (.indexOutOfRange "array_get") := by
  have hview : (Object.composite .array v).array? "array_get" = .ok v := rfl
  unfold arrayGet
  rw [bind_eq_of_ok hview, bind_eq_of_error (View.slot_error hi)]

theorem Arena.SameElements.eq (hs : SameElements v a b) (i : Int32) :
    arrayGet (.composite .array v) i b = arrayGet (.composite .array v) i a := by
  by_cases hi : v.InRange i
  · obtain ⟨o, ha, hb⟩ := (hs i).1 hi
    exact hb.trans ha.symm
  · rw [arrayGet_error hi, arrayGet_error hi]

/-- What holds of the slots of an array holds of the elements of its windows. -/
theorem Arena.sameElements_of_slots (hw : ∀ i, w.InRange i →
      w.offset.toNat + i.toUInt32.toNat < v.size.toNat) (hent : w.ent = v.ent)
    (hslots : ∀ j < v.size.toNat, ∃ o, a.readSlot v.ent j = .ok o ∧ b.readSlot v.ent j = .ok o) :
    SameElements w a b := by
  refine fun i => ⟨fun hi => ?_, fun hi => ⟨arrayGet_error hi, arrayGet_error hi⟩⟩
  rw [arrayGet_eq hi, arrayGet_eq hi, hent]
  exact hslots _ (hw i hi)

section Shown

variable (hA : Account terms h l log) (hc : Closed h l log outer.length b l') {j : Nat}
  (hj : j < v.size.toNat)

include hA hc hj

/-- What an array older than the level shows once the level is closed. -/
theorem Account.shows_saved (hp : h.past = saved :: outer) (hbase : terms.base ≤ outer.length)
    (hv : v ∈ saved.arrays) :
    ∃ o, saved.arena.readSlot v.ent j = .ok o ∧ b.Shows v.ent j o := by
  have hinner := innermost hp
  have hlen : h.past.length = outer.length + 1 := by rw [hp, List.length_cons]
  obtain ⟨o, hread, hshow⟩ := hA.kept saved outer hinner hbase v hv j hj
  have he := Client.mem_entities ((hA.arrays_suffix hinner).subset hv) (size_ne_zero hj)
  rw [← hA.array] at he
  rw [hlen, since_succ (Nat.le_refl _), since_eq_nil (Nat.le_refl _), List.nil_append] at hshow
  exact ⟨o, hread, hc.shows _
    (fun p hstack => hA.describes.not_mem_of_ne he (by rintro rfl; exact hstack))
    (hA.describes.not_mem_of_ne he (by simp)) j o hshow⟩

/-- What an array that the level has no record of shows once the level is closed. -/
theorem Account.shows_unrecorded (hv : v ∈ h.now.arrays)
    (hself : ∀ r ∈ log outer.length, r.source ≠ v.ent) :
    ∃ o, h.now.arena.Shows v.ent j o ∧ b.Shows v.ent j o := by
  have he := Client.mem_entities hv (size_ne_zero hj)
  rw [← hA.array] at he
  obtain ⟨o, hshow⟩ := hA.shows_now hA.base_le hv hj
  refine ⟨o, hshow, hc.shows _ (fun p hstack =>
    hA.describes.not_mem_of_ne he (by rintro rfl; exact hstack))
    (hA.describes.not_mem_of_ne he (by simp)) j o ?_⟩
  rw [origin_of_not_source hself]
  exact hshow

/-- An array made in the level is not recorded in it. -/
theorem Account.shows_new (hwithin : ∀ r ∈ log outer.length, r.source = 0 ∨ r.source ∈ saved.entities)
    {new : List View} (hnew : new ++ saved.arrays = h.now.arrays) (hv : v ∈ new) :
    ∃ o, h.now.arena.Shows v.ent j o ∧ b.Shows v.ent j o := by
  have hvnow : v ∈ h.now.arrays := hnew ▸ List.mem_append_left _ hv
  refine hA.shows_unrecorded hc hj hvnow fun r hr heq => ?_
  rcases hwithin r hr with h0 | hmem
  · have he := Client.mem_entities hvnow (size_ne_zero hj)
    rw [← hA.array] at he
    exact hA.describes.ne_zero he (heq.symm.trans h0)
  · exact hA.entity_since hnew hv (size_ne_zero hj) (heq ▸ hmem)

end Shown

/-- Closing a level that has recorded nothing but arrays older than itself. -/
theorem Account.elements_restored (hA : Account terms h l log) (hp : h.past = saved :: outer)
    (hbase : terms.base ≤ outer.length)
    (hwithin : ∀ r ∈ log outer.length, r.source = 0 ∨ r.source ∈ saved.entities)
    (hc : Closed h l log outer.length b l') :
    ∃ new, h.now.arrays = new ++ saved.arrays ∧
      (∀ v ∈ saved.arrays, ∀ w, Object.WindowOf (.composite .array v) (.composite .array w) →
        Arena.SameElements w saved.arena b) ∧
      ∀ v ∈ new, ∀ w, Object.WindowOf (.composite .array v) (.composite .array w) →
        Arena.SameElements w h.now.arena b := by
  obtain ⟨new, hnew⟩ := hA.arrays_suffix (innermost hp)
  have hwindow : ∀ v ∈ h.now.arrays, ∀ w,
      Object.WindowOf (.composite .array v) (.composite .array w) → w.ent = v.ent ∧
        ∀ i, w.InRange i → w.offset.toNat + i.toUInt32.toNat < v.size.toNat := by
    intro v hv w hw
    obtain ⟨u, heq, hent, hin⟩ := hA.window hv hw
    cases heq
    exact ⟨hent, hin⟩
  refine ⟨new, hnew.symm, ?_, ?_⟩
  · intro v hv w hw
    obtain ⟨hent, hin⟩ := hwindow v (hnew ▸ List.mem_append_right _ hv) w hw
    refine Arena.sameElements_of_slots hin hent fun j hj => ?_
    obtain ⟨o, hread, hshow⟩ := hA.shows_saved hc hj hp hbase hv
    exact ⟨o, hread, hshow.readSlot hc.describes.sound⟩
  · intro v hv w hw
    obtain ⟨hent, hin⟩ := hwindow v (hnew ▸ List.mem_append_left _ hv) w hw
    refine Arena.sameElements_of_slots hin hent fun j hj => ?_
    obtain ⟨o, hbefore, hafter⟩ := hA.shows_new hc hj hwithin hnew hv
    exact ⟨o, hbefore.readSlot hA.describes.sound, hafter.readSlot hc.describes.sound⟩

theorem restore_returns_to_save (hr : h.Run extra limit) (hp : h.past = saved :: outer)
    (hrestore : Arena.restore h.now.arena = .ok () a) :
    ∃ new, h.now.arrays = new ++ saved.arrays ∧
      (∀ v ∈ saved.arrays, ∀ w, Object.WindowOf (.composite .array v) (.composite .array w) →
        Arena.SameElements w saved.arena a) ∧
      (∀ v ∈ new, ∀ w, Object.WindowOf (.composite .array v) (.composite .array w) →
        Arena.SameElements w h.now.arena a) ∧
      ∀ s ∈ h.now.liveStacks, ∃ vals, s.toList h.now.arena = .ok vals ∧ s.toList a = .ok vals := by
  obtain ⟨l, log, hA⟩ := hr.account
  obtain ⟨b, l', hrun, hc⟩ := hA.restore_spec hp (Nat.zero_le _)
  rw [hrestore] at hrun
  cases hrun
  have hAa := hc.account hA hp (Nat.zero_le _)
  have hwithin := (hA.enclosed id).within saved outer (innermost hp)
  obtain ⟨new, hnew, hold, hmade⟩ := hA.elements_restored hp (Nat.zero_le _) hwithin hc
  refine ⟨new, hnew, hold, hmade, ?_⟩
  · intro s hs
    have hafter := hAa.toList_eq (s := s) hs
    rw [hc.values _ (by simp) (by simp)] at hafter
    exact ⟨_, hA.toList_eq hs, hafter⟩

/-- An element is null at the save, stored to in the level, and null again after the restore. -/
theorem restore_returns_to_save_put :
    let first : Object := .composite .array { size := 1, ent := 1 }
    ∃ saved a, History.arrayStored.past = [saved] ∧
      Arena.arrayGet first 0 saved.arena = .ok .null ∧
      Arena.arrayGet first 0 History.arrayStored.now.arena = .ok (.integer 7) ∧
      Arena.restore History.arrayStored.now.arena = .ok () a ∧
      Arena.arrayGet first 0 a = .ok .null := by
  intro first
  obtain ⟨saved, hpast, harrays, hnull⟩ := History.past_arraySaved
  have hp : History.arrayStored.past = [saved] := History.past_arrayStored.trans hpast
  have hrun : History.arrayStored.Run False 1000 := History.run_arrayStored
  obtain ⟨l, log, hA⟩ := hrun.account
  obtain ⟨a, l', hrestore, -⟩ := hA.restore_spec hp (Nat.zero_le _)
  obtain ⟨-, -, -, -, -, hseven⟩ := History.arena_arrayStored
  obtain ⟨new, -, hsame, -⟩ := restore_returns_to_save hrun hp hrestore
  have hv : ({ size := 1, ent := 1 } : View) ∈ saved.arrays := harrays ▸ List.mem_singleton_self _
  exact ⟨saved, a, hp, hnull, hseven, hrestore, ((hsame _ hv _ .self).eq 0).trans hnull⟩

end BankedMemory
