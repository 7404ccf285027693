import BankedMemory.Proofs.Context.Stores

/-!
# Derived arrays

A value is a capability: `Object.narrow` and `Object.restrict` make weaker ones out of it, in any
order. A weaker view has no slot and no right that the view it comes from does not have, so an
access through it is refused and changes nothing, or is the access to the same slot through the
other one: `derived_value_weaker`.
-/

namespace BankedMemory

/-- What is made out of a value by taking windows and giving up rights. -/
inductive Object.DerivedFrom (o : Object) : Object → Prop where
  | self : DerivedFrom o o
  | narrow {p q : Object} {offset size : Int32} (derived : DerivedFrom o p)
      (narrowed : p.narrow offset size = .ok q) : DerivedFrom o q
  | restrict {p q : Object} {access : Access} (derived : DerivedFrom o p)
      (restricted : p.restrict access = .ok q) : DerivedFrom o q

/-- No access to `w` may do more than an access to `v`. -/
structure Access.Weaker (v w : Access) : Prop where
  readable : w.readable → v.readable
  writable : w.writable → v.writable

namespace View

/-- The slot is one of the view's. -/
def HasSlot (v : View) (slot : Nat) : Prop :=
  v.offset.toNat ≤ slot ∧ slot < v.offset.toNat + v.size.toNat

/-- `w` has slots of `v` alone, and no more rights on them. -/
structure Weaker (v w : View) : Prop where
  bank : w.bank = v.bank
  ent : w.ent = v.ent
  offset_le : v.offset.toNat ≤ w.offset.toNat
  end_le : w.offset.toNat + w.size.toNat ≤ v.offset.toNat + v.size.toNat
  access : v.access.Weaker w.access

/-- The index of an element of `w`, counted from the start of `v`. -/
def IndexFrom (v w : View) (k j : Int32) : Prop :=
  j.toInt = w.offset.toNat - v.offset.toNat + k.toInt

/-- The object is written into the slot. Before that the entity may be kept for the save level, and
nothing else is done; the other bank is not touched. -/
def Writes (v : View) (slot : Nat) (x : Object) (c d : Context) : Prop :=
  ∃ a b, (a = c.arena v.bank ∨ Arena.preserve .array v.ent (c.arena v.bank) = .ok () a) ∧
    Arena.writeSlot v.ent slot x a = .ok () b ∧ d = c.withArena v.bank b

/-- What is done through `w` at index `k` is done to a slot of `v`, could be done through `v`, and
is the same there. -/
structure Serves (v w : View) (k : Int32) (c : Context) : Prop where
  read : ∀ x, Context.arrayGet (.composite .array w) k c = .ok x →
    v.access.readable ∧ v.HasSlot (w.offset.toNat + k.toUInt32.toNat) ∧
      (c.arena v.bank).readSlot v.ent (w.offset.toNat + k.toUInt32.toNat) = .ok x ∧
      ∀ j, v.IndexFrom w k j → Context.arrayGet (.composite .array v) j c = .ok x
  store : ∀ x d, Context.arrayPut (.composite .array w) k x c = .ok () d →
    v.access.writable ∧ v.HasSlot (w.offset.toNat + k.toUInt32.toNat) ∧
      v.Writes (w.offset.toNat + k.toUInt32.toNat) x c d ∧
      ∀ j, v.IndexFrom w k j → Context.arrayPut (.composite .array v) j x c = .ok () d
  /-- A store that fails is refused at once, or fails on the way as it would through `v`. -/
  failed : ∀ x f d, Context.arrayPut (.composite .array w) k x c = .error f d →
    d = c ∨ v.access.writable ∧ v.HasSlot (w.offset.toNat + k.toUInt32.toNat) ∧
      ∀ j, v.IndexFrom w k j → Context.arrayPut (.composite .array v) j x c = .error f d

end View

variable {shape : Shape} {u v w : View} {o q : Object} {offset size i j k : Int32} {access : Access}
  {c d : Context} {x : Object}

/-! ## Rights and windows -/

theorem Access.Weaker.refl (access : Access) : access.Weaker access := ⟨id, id⟩

namespace View.Weaker

theorem refl (v : View) : v.Weaker v := ⟨rfl, rfl, Nat.le_refl _, Nat.le_refl _, .refl _⟩

theorem trans (h : u.Weaker v) (h' : v.Weaker w) : u.Weaker w where
  bank := h'.bank.trans h.bank
  ent := h'.ent.trans h.ent
  offset_le := Nat.le_trans h.offset_le h'.offset_le
  end_le := Nat.le_trans h'.end_le h.end_le
  access := ⟨h.access.readable ∘ h'.access.readable, h.access.writable ∘ h'.access.writable⟩

theorem window (hword : v.offset.toNat + v.size.toNat < UInt32.size) (hin : v.Encloses offset size) :
    v.Weaker (v.window offset size) := by
  have hoffset := hin.toNat_offset hword
  have hsize := hin.toNat_size
  obtain ⟨hpos, -, hend⟩ := hin
  exact ⟨rfl, rfl, by omega, by omega, .refl _⟩

end View.Weaker

theorem Object.restrict_of_ok (hr : (composite shape v).restrict access = .ok q) :
    q = composite shape { v with access } ∧ v.access.Weaker access := by
  unfold restrict at hr
  simp only at hr
  split at hr
  · cases hr
  · next hkept =>
    cases hr
    simp only [Bool.or_eq_true, Bool.and_eq_true, Bool.not_eq_true', not_or, not_and,
      Bool.not_eq_false] at hkept
    exact ⟨rfl, hkept.1, hkept.2⟩

/-- Every value on the way is weaker than those before it. -/
theorem Object.DerivedFrom.weaker (hd : (composite shape v).DerivedFrom o)
    (hword : v.offset.toNat + v.size.toNat < UInt32.size) :
    ∃ w, o = composite shape w ∧ v.Weaker w := by
  induction hd with
  | self => exact ⟨v, rfl, .refl v⟩
  | narrow _ narrowed ih =>
    obtain ⟨u, rfl, hu⟩ := ih
    obtain ⟨hin, -, rfl⟩ := encloses_of_narrow narrowed
    exact ⟨_, rfl, hu.trans (.window (Nat.lt_of_le_of_lt hu.end_le hword) hin)⟩
  | restrict _ restricted ih =>
    obtain ⟨u, rfl, hu⟩ := ih
    obtain ⟨rfl, hless⟩ := restrict_of_ok restricted
    exact ⟨_, rfl, hu.trans ⟨rfl, rfl, Nat.le_refl _, Nat.le_refl _, hless⟩⟩

/-! ## The same slot through either view -/

/-- An arena looks at the entity and the slot alone. -/
theorem Arena.arrayGet_congr (hent : w.ent = v.ent)
    (hslot : w.slot k "array_get" = v.slot j "array_get") (a : Arena) :
    arrayGet (.composite .array w) k a = arrayGet (.composite .array v) j a := by
  have hview : ∀ u : View, (Object.composite .array u).array? "array_get" = .ok u := fun _ => rfl
  unfold arrayGet
  rw [bind_eq_of_ok (hview w), bind_eq_of_ok (hview v), hent, hslot]

theorem Arena.arrayPut_congr (hent : w.ent = v.ent)
    (hslot : w.slot k "array_put" = v.slot j "array_put") (x : Object) :
    arrayPut (.composite .array w) k x = arrayPut (.composite .array v) j x := by
  have hview : ∀ u : View, (Object.composite .array u).array? "array_put" = .ok u := fun _ => rfl
  funext a
  unfold arrayPut
  rw [ArenaM.reading_bind (f := fun _ => (Object.composite .array w).array? "array_put") (hview w),
    ArenaM.reading_bind (f := fun _ => (Object.composite .array v).array? "array_put") (hview v),
    hent, hslot]

/-- A store that succeeds has written the slot, and at most kept the entity before. -/
theorem Arena.writeSlot_of_arrayPut (hi : v.InRange i) {a b : Arena}
    (hput : arrayPut (.composite .array v) i x a = .ok () b) :
    ∃ a', (a' = a ∨ preserve .array v.ent a = .ok () a') ∧
      writeSlot v.ent (v.offset.toNat + i.toUInt32.toNat) x a' = .ok () b := by
  have hview : (Object.composite .array v).array? "array_put" = .ok v := rfl
  unfold arrayPut at hput
  rw [ArenaM.reading_bind (f := fun _ => (Object.composite .array v).array? "array_put") hview,
    ArenaM.reading_bind (f := fun _ => v.slot i "array_put") (View.slot_eq hi)] at hput
  cases hkept : a.preserved v.ent with
  | error f => cases (EStateM.bind_of_error (ArenaM.reading_of_error hkept)).symm.trans hput
  | ok kept =>
    rw [ArenaM.reading_bind (f := fun a => a.preserved v.ent) hkept] at hput
    cases kept with
    | true => exact ⟨a, .inl rfl, hput⟩
    | false =>
      obtain ⟨_, a', hpreserve, hwrite⟩ := EStateM.exists_of_bind_ok hput
      exact ⟨a', .inr hpreserve, hwrite⟩

namespace Context

theorem arrayGet_of_readable (hread : v.access.readable) :
    arrayGet (.composite .array v) i c = Arena.arrayGet (.composite .array v) i (c.arena v.bank) := by
  have hview : (Object.composite .array v).array? "bank_array_get" = .ok v := rfl
  unfold arrayGet
  rw [bind_eq_of_ok hview]
  simp only
  rw [hread]
  rfl

/-- Storing through an array that may be written, as far as the check of what is stored. -/
def checkedPut (v : View) (x : Object) (put : ArenaM Unit) : ContextM Unit := do
  reading fun c => v.bank.accept x c.permissive "bank_array_put"
  onArena v.bank put

theorem arrayPut_of_writable (hwrite : v.access.writable) :
    arrayPut (.composite .array v) i x c =
      checkedPut v x (Arena.arrayPut (.composite .array v) i x) c := by
  have hview : reading (fun _ => (Object.composite .array v).array? "bank_array_put") c = .ok v c :=
    rfl
  unfold arrayPut
  rw [EStateM.bind_of_ok hview]
  simp only
  rw [hwrite]
  rfl

theorem writes_of_arrayPut (hwrite : v.access.writable) (hi : v.InRange i)
    (hput : arrayPut (.composite .array v) i x c = .ok () d) :
    v.Writes (v.offset.toNat + i.toUInt32.toNat) x c d := by
  rw [arrayPut_of_writable hwrite] at hput
  obtain ⟨_, c', haccept, hput⟩ := EStateM.exists_of_bind_ok hput
  rcases reading_cases (fun c => v.bank.accept x c.permissive "bank_array_put") c with
    ⟨f, hrefused⟩ | ⟨_, htaken⟩
  · cases hrefused.symm.trans haccept
  · cases htaken.symm.trans haccept
    obtain ⟨b, hstored, rfl⟩ := exists_of_onArena_ok hput
    obtain ⟨a, hkept, hslot⟩ := Arena.writeSlot_of_arrayPut hi hstored
    exact ⟨a, b, hkept, hslot, rfl⟩

/-- A store that is not allowed, or into no element of the array, is refused. -/
theorem arrayPut_refused (hnot : ¬(v.access.writable ∧ v.InRange i)) (x : Object) (c : Context) :
    ∃ f, arrayPut (.composite .array v) i x c = .error f c := by
  by_cases hwrite : v.access.writable
  · have hi : ¬v.InRange i := fun hi => hnot ⟨hwrite, hi⟩
    rw [arrayPut_of_writable hwrite]
    unfold checkedPut
    cases haccept : v.bank.accept x c.permissive "bank_array_put" with
    | error f => exact ⟨f, EStateM.bind_of_error (reading_of_error haccept)⟩
    | ok _ =>
      refine ⟨.indexOutOfRange "array_put", ?_⟩
      rw [EStateM.bind_of_ok (reading_of_ok haccept),
        onArena_of_error (Arena.arrayPut_error hi x (c.arena v.bank)), withArena_arena]
  · have hview : reading (fun _ => (Object.composite .array v).array? "bank_array_put") c = .ok v c :=
      rfl
    refine ⟨.accessDenied "bank_array_put", ?_⟩
    unfold arrayPut
    rw [EStateM.bind_of_ok hview]
    simp only
    rw [if_pos (by simpa using hwrite)]
    rfl

end Context

/-! ## What a weaker view serves -/

namespace View

variable (hw : v.Weaker w) (hk : w.InRange k)

include hw hk

/-- The slot is one of `v`'s, and its index there names it. -/
theorem Weaker.hasSlot : v.HasSlot (w.offset.toNat + k.toUInt32.toNat) := by
  have hlt := UInt32.lt_iff_toNat_lt.mp hk.2
  have hoffset := hw.offset_le
  have hend := hw.end_le
  exact ⟨by omega, by omega⟩

theorem Weaker.slot_congr (hj : v.IndexFrom w k j) (op : String) : w.slot k op = v.slot j op := by
  have hpos := (inRange_iff.mp hk).1
  have hlt := (inRange_iff.mp hk).2
  have hoffset := hw.offset_le
  have hend := hw.end_le
  unfold IndexFrom at hj
  have hjv : v.InRange j := inRange_iff.mpr ⟨by omega, by omega⟩
  have hwordk := toNat_word hpos
  have hwordj := toNat_word (inRange_iff.mp hjv).1
  rw [slot_eq hk, slot_eq hjv]
  exact congrArg Except.ok (by omega)

theorem Weaker.arrayGet_eq (hread : w.access.readable) (hj : v.IndexFrom w k j) :
    Context.arrayGet (.composite .array v) j c = Context.arrayGet (.composite .array w) k c := by
  rw [Context.arrayGet_of_readable hread, Context.arrayGet_of_readable (hw.access.readable hread),
    hw.bank, Arena.arrayGet_congr hw.ent (hw.slot_congr hk hj _)]

theorem Weaker.arrayPut_eq (hwrite : w.access.writable) (hj : v.IndexFrom w k j) (x : Object) :
    Context.arrayPut (.composite .array v) j x c = Context.arrayPut (.composite .array w) k x c := by
  rw [Context.arrayPut_of_writable hwrite, Context.arrayPut_of_writable (hw.access.writable hwrite)]
  unfold Context.checkedPut
  rw [hw.bank, Arena.arrayPut_congr hw.ent (hw.slot_congr hk hj _)]

end View

theorem View.Weaker.serves (hw : v.Weaker w) (k : Int32) (c : Context) : v.Serves w k c where
  read x hget := by
    obtain ⟨hread, hk⟩ := Context.inRange_of_arrayGet hget
    refine ⟨hw.access.readable hread, hw.hasSlot hk, ?_, fun j hj => ?_⟩
    · rw [← hw.bank, ← hw.ent, ← Arena.arrayGet_eq hk, ← Context.arrayGet_of_readable hread, hget]
    · rw [hw.arrayGet_eq hk hread hj, hget]
  store x d hput := by
    by_cases hok : w.access.writable ∧ w.InRange k
    · obtain ⟨hwrite, hk⟩ := hok
      refine ⟨hw.access.writable hwrite, hw.hasSlot hk, ?_, fun j hj => ?_⟩
      · have hwrites := Context.writes_of_arrayPut hwrite hk hput
        unfold View.Writes at hwrites ⊢
        rwa [hw.bank, hw.ent] at hwrites
      · rw [hw.arrayPut_eq hk hwrite hj, hput]
    · obtain ⟨f, hrefused⟩ := Context.arrayPut_refused hok x c
      cases hput.symm.trans hrefused
  failed x f d hput := by
    by_cases hok : w.access.writable ∧ w.InRange k
    · obtain ⟨hwrite, hk⟩ := hok
      refine .inr ⟨hw.access.writable hwrite, hw.hasSlot hk, fun j hj => ?_⟩
      rw [hw.arrayPut_eq hk hwrite hj, hput]
    · obtain ⟨f', hrefused⟩ := Context.arrayPut_refused hok x c
      cases hput.symm.trans hrefused
      exact .inl rfl

/-- Whatever is derived from an array whose window ends below the words' end: it is an array of the
same bank and entity, its window lies within, it has no right that one of the values on the way does
not have, and an access through it that succeeds, or that changes anything, is one through the
array. -/
theorem derived_value_weaker (hword : v.offset.toNat + v.size.toNat < UInt32.size)
    (hd : (Object.composite .array v).DerivedFrom o) :
    ∃ w, o = .composite .array w ∧ v.Weaker w ∧
      (∀ u, (Object.composite .array v).DerivedFrom (.composite .array u) →
        (Object.composite .array u).DerivedFrom o → u.access.Weaker w.access) ∧
      ∀ k c, v.Serves w k c := by
  obtain ⟨w, rfl, hw⟩ := hd.weaker hword
  refine ⟨w, rfl, hw, fun u hu huw => ?_, hw.serves⟩
  obtain ⟨u', heq, hvu⟩ := hu.weaker hword
  cases heq
  obtain ⟨w', heq, huw⟩ := huw.weaker (Nat.lt_of_le_of_lt hvu.end_le hword)
  cases heq
  exact huw.access

/-- The last two of three elements, to be read only: the last one, stored to before, is read through
either view, and a store through the weaker one is refused. -/
theorem derived_value_weaker_window :
    let v : View := { size := 3, ent := 1 }
    let c := Journal.windowStored.context
    ∃ w, (Object.composite .array v).DerivedFrom (.composite .array w) ∧ w.offset = 1 ∧ w.size = 2 ∧
      w.access = .readOnly ∧ (∀ k c, v.Serves w k c) ∧
      Context.arrayGet (.composite .array w) 1 c = .ok (.integer 9) ∧
      Context.arrayGet (.composite .array v) 2 c = .ok (.integer 9) ∧
      ∃ f, Context.arrayPut (.composite .array w) 1 .null c = .error f c := by
  intro v c
  have hwindow : (Object.composite .array v).narrow 1 2 =
      .ok (.composite .array { size := 2, ent := 1, offset := 1 }) := rfl
  have hreadOnly : (Object.composite .array { size := 2, ent := 1, offset := 1 }).restrict .readOnly =
      .ok (.composite .array { size := 2, ent := 1, offset := 1, access := .readOnly }) := rfl
  have hd : (Object.composite .array v).DerivedFrom
      (.composite .array { size := 2, ent := 1, offset := 1, access := .readOnly }) :=
    .restrict (.narrow .self hwindow) hreadOnly
  obtain ⟨w, heq, -, -, hserves⟩ := derived_value_weaker (by decide) hd
  cases heq
  have hget : Context.arrayGet
      (.composite .array { size := 2, ent := 1, offset := 1, access := .readOnly }) 1 c =
        .ok (.integer 9) := by
    decide +kernel
  obtain ⟨-, -, -, hindex⟩ := (hserves 1 c).read _ hget
  exact ⟨_, hd, rfl, rfl, rfl, hserves, hget, hindex 2 rfl,
    Context.arrayPut_refused (fun hnot => absurd hnot.1 (by decide)) _ _⟩

end BankedMemory
