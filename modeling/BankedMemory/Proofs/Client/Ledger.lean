import BankedMemory.Arena.Checkpoint
import BankedMemory.Proofs.Stack.Push
import Mathlib.Logic.Function.Basic

/-!
# Who holds which row

A `Ledger` says what every live row is for: storage of an array, a segment of one of the stacks, or
a copy kept for a save level. No row is held twice and none is forgotten, so a change to what one
owner holds leaves everything else as it is: `Describes.update` says so once for all the operations.
-/

namespace BankedMemory

/-- The depth is the number of values on the save stack. -/
theorem Arena.Laid.depth_eq {a : Arena} {segs : List Handle} {vals : List Object} (hs : a.Sound)
    (hl : a.Laid segs vals) (hopened : a.saves = segs.head?) :
    a.depth = .ok (UInt32.ofNat vals.length) := by
  have hroom := hl.room
  cases segs with
  | nil => exact absurd hroom (Nat.not_lt_zero _)
  | cons seg rest =>
    unfold Arena.depth
    rw [hopened]
    simp only [List.head?_cons]
    rw [bind_eq_of_ok (hl.count_eq (s := ⟨seg⟩) hs rfl)]
    rfl

/-- What a row can be held for. Save levels are numbered from 0, the outermost. -/
inductive Owner where
  | array
  | stack (s : Stack)
  | saves
  | records (k : Nat)
  | copies (k : Nat)
deriving DecidableEq

/-- Owners that hold the segments of a stack. -/
def Owner.IsStack : Owner → Prop
  | array | copies _ => False
  | stack _ | saves | records _ => True

structure Ledger where
  held : Owner → List Handle
  /-- The values on the stack of an owner of segments. -/
  values : Owner → List Object

namespace Ledger

def empty : Ledger := ⟨fun _ => [], fun _ => []⟩

/-- What one owner holds, replaced. -/
def set (l : Ledger) (o : Owner) (rows : List Handle) (vals : List Object) : Ledger :=
  ⟨Function.update l.held o rows, Function.update l.values o vals⟩

variable {l : Ledger} {o p : Owner} {rows : List Handle} {vals : List Object}

@[simp] theorem held_set_self : (l.set o rows vals).held o = rows := Function.update_self ..

@[simp] theorem values_set_self : (l.set o rows vals).values o = vals := Function.update_self ..

@[simp] theorem held_set_ne (hne : p ≠ o) : (l.set o rows vals).held p = l.held p :=
  Function.update_of_ne hne ..

@[simp] theorem values_set_ne (hne : p ≠ o) : (l.set o rows vals).values p = l.values p :=
  Function.update_of_ne hne ..

theorem set_set {rows' : List Handle} {vals' : List Object} :
    (l.set o rows vals).set o rows' vals' = l.set o rows' vals' := by
  simp [set, Function.update_idem]

theorem set_comm (hne : p ≠ o) {rows' : List Handle} {vals' : List Object} :
    (l.set o rows vals).set p rows' vals' = (l.set p rows' vals').set o rows vals := by
  simp [set, Function.update_comm hne]

theorem set_self : l.set o (l.held o) (l.values o) = l := by
  simp [set, Function.update_eq_self]

/-- The client's stacks have the same segments and values. -/
def SameStacks (l' l : Ledger) : Prop :=
  ∀ s, l'.held (.stack s) = l.held (.stack s) ∧ l'.values (.stack s) = l.values (.stack s)

theorem SameStacks.refl (l : Ledger) : l.SameStacks l := fun _ => ⟨rfl, rfl⟩

structure Describes (l : Ledger) (a : Arena) : Prop where
  sound : a.Sound
  nodup : ∀ o, (l.held o).Nodup
  zero : ∀ o, (0 : Handle) ∉ l.held o
  unique : ∀ {o p : Owner} {h : Handle}, h ∈ l.held o → h ∈ l.held p → o = p
  live : ∀ h, a.Live h ↔ h = 0 ∨ ∃ o, h ∈ l.held o
  laid : ∀ o, o.IsStack → l.held o ≠ [] → a.Laid (l.held o) (l.values o)

theorem describes_empty (limit : Nat) : empty.Describes (.empty limit) where
  sound := Arena.sound_empty limit
  nodup _ := List.nodup_nil
  zero _ := List.not_mem_nil
  unique hh := absurd hh List.not_mem_nil
  live h := by
    have hcell : (Arena.empty limit).cell h = none ↔ h ≠ 0 := Arena.cell_empty
    rw [Arena.cell_eq_none_iff] at hcell
    rw [← not_iff_not, hcell]
    simp [empty]
  laid _ _ hne := absurd rfl hne

namespace Describes

variable {a b : Arena} {F : Set Handle} {h : Handle}

theorem live_of_mem (hl : l.Describes a) (hh : h ∈ l.held o) : a.Live h :=
  (hl.live h).mpr (.inr ⟨o, hh⟩)

theorem ne_zero (hl : l.Describes a) (hh : h ∈ l.held o) : h ≠ 0 := fun h0 => hl.zero o (h0 ▸ hh)

/-- A row that shows nothing is held by no one. -/
theorem not_mem_of_none (hl : l.Describes a) (hc : a.cell h = none) (o : Owner) : h ∉ l.held o :=
  fun hh => Arena.cell_eq_none_iff.mp hc (hl.live_of_mem hh)

theorem not_mem_of_ne (hl : l.Describes a) (hh : h ∈ l.held o) (hne : p ≠ o) : h ∉ l.held p :=
  fun hp => hne (hl.unique hp hh)

/-- One owner takes rows or gives them back, and no row of another one is touched. -/
theorem update (hl : l.Describes a) (t : Arena.Touches F a b)
    (hF : ∀ k ∈ F, k ∈ l.held o ∨ k ∈ rows)
    (hnew : ∀ k ∈ rows, k ∈ l.held o ∨ a.cell k = none) (hnodup : rows.Nodup)
    (hlive : ∀ k ∈ rows, b.Live k) (hdead : ∀ k ∈ l.held o, k ∉ rows → ¬b.Live k)
    (hlaid : o.IsStack → rows ≠ [] → b.Laid rows vals) : (l.set o rows vals).Describes b := by
  have hother : ∀ {p : Owner} {k : Handle}, p ≠ o → k ∈ l.held p → k ∉ l.held o ∧ k ∉ rows := by
    intro p k hp hk
    have hko := hl.not_mem_of_ne hk (Ne.symm hp)
    refine ⟨hko, fun hkr => ?_⟩
    rcases hnew k hkr with hko' | hnone
    · exact hko hko'
    · exact hl.not_mem_of_none hnone p hk
  have hframe : ∀ k, k ∉ l.held o → k ∉ rows → b.cell k = a.cell k := fun k hko hkr =>
    t.cell k fun hkF => (hF k hkF).elim hko hkr
  have hzero : (0 : Handle) ∉ rows := fun h0 => by
    rcases hnew 0 h0 with h0 | h0
    · exact hl.zero o h0
    · exact Arena.cell_eq_none_iff.mp h0 hl.sound.live_zero
  exact
    { sound := t.sound
      nodup := fun p => by
        rcases eq_or_ne p o with rfl | hpo
        · rwa [held_set_self]
        · rw [held_set_ne hpo]
          exact hl.nodup p
      zero := fun p => by
        rcases eq_or_ne p o with rfl | hpo
        · rwa [held_set_self]
        · rw [held_set_ne hpo]
          exact hl.zero p
      unique := fun {p q k} hp hq => by
        rcases eq_or_ne p o with rfl | hpo <;> rcases eq_or_ne q p with rfl | hqp
        · rfl
        · rw [held_set_self] at hp
          rw [held_set_ne hqp] at hq
          exact absurd hp (hother hqp hq).2
        · rfl
        · rw [held_set_ne hpo] at hp
          rcases eq_or_ne q o with rfl | hqo
          · rw [held_set_self] at hq
            exact absurd hq (hother hpo hp).2
          · rw [held_set_ne hqo] at hq
            exact hl.unique hp hq
      live := fun k => by
        by_cases hkr : k ∈ rows
        · exact ⟨fun _ => .inr ⟨o, by rwa [held_set_self]⟩, fun _ => hlive k hkr⟩
        by_cases hko : k ∈ l.held o
        · refine ⟨fun hlk => absurd hlk (hdead k hko hkr), ?_⟩
          rintro (rfl | ⟨p, hp⟩)
          · exact absurd hko (hl.zero o)
          · rcases eq_or_ne p o with rfl | hpo
            · rw [held_set_self] at hp
              exact absurd hp hkr
            · rw [held_set_ne hpo] at hp
              exact absurd hko (hother hpo hp).1
        · rw [Arena.live_iff_cell, hframe k hko hkr, ← Arena.live_iff_cell, hl.live]
          refine or_congr_right (exists_congr fun p => ?_)
          rcases eq_or_ne p o with rfl | hpo
          · rw [held_set_self]
            exact iff_of_false hko hkr
          · rw [held_set_ne hpo]
      laid := fun p hp hne => by
        rcases eq_or_ne p o with rfl | hpo
        · rw [held_set_self] at hne ⊢
          rw [values_set_self]
          exact hlaid hp hne
        · rw [held_set_ne hpo] at hne ⊢
          rw [values_set_ne hpo]
          exact (hl.laid p hp hne).frame fun k hk => hframe k (hother hpo hk).1 (hother hpo hk).2 }

/-- The segments of an owner lie with new values, and with new segments perhaps. -/
theorem relaid (hl : l.Describes a) (t : Arena.Touches F a b)
    (hF : ∀ k ∈ F, k ∈ rows) (hkeep : ∀ k ∈ l.held o, k ∈ rows)
    (hnew : ∀ k ∈ rows, k ∈ l.held o ∨ a.cell k = none) (hlaid : b.Laid rows vals) :
    (l.set o rows vals).Describes b :=
  hl.update t (fun k hk => .inr (hF k hk)) hnew hlaid.nodup (fun _ hk => hlaid.live hk)
    (fun k hk hkr => absurd (hkeep k hk) hkr) fun _ _ => hlaid

/-- An owner gives all its rows back. -/
theorem dropped (hl : l.Describes a) (t : Arena.Touches {k | k ∈ l.held o} a b)
    (hdead : ∀ k ∈ l.held o, b.cell k = none) : (l.set o [] []).Describes b :=
  hl.update t (fun _ hk => .inl hk) (fun _ hk => absurd hk List.not_mem_nil) List.nodup_nil
    (fun _ hk => absurd hk List.not_mem_nil)
    (fun k hk _ => Arena.cell_eq_none_iff.mp (hdead k hk)) fun _ hne => absurd rfl hne

/-- An owner takes one row more. -/
theorem take (hl : l.Describes a) (t : Arena.Touches {h} a b) (ho : ¬o.IsStack)
    (hdead : a.cell h = none) (hlive : b.Live h) (hrows : rows.Perm (h :: l.held o)) :
    (l.set o rows (l.values o)).Describes b := by
  have hmem : ∀ k, k ∈ rows ↔ k = h ∨ k ∈ l.held o := fun k => by
    rw [hrows.mem_iff, List.mem_cons]
  refine hl.update t ?_ ?_ ?_ ?_ ?_ fun ho' => absurd ho' ho
  · rintro k rfl
    exact .inr ((hmem k).mpr (.inl rfl))
  · intro k hk
    rcases (hmem k).mp hk with rfl | hk
    · exact .inr hdead
    · exact .inl hk
  · exact hrows.nodup_iff.mpr (List.nodup_cons.mpr ⟨hl.not_mem_of_none hdead o, hl.nodup o⟩)
  · intro k hk
    rcases eq_or_ne k h with rfl | hne
    · exact hlive
    · rw [Arena.live_iff_cell, t.cell k hne, ← Arena.live_iff_cell]
      exact hl.live_of_mem (((hmem k).mp hk).resolve_left hne)
  · intro k hk hkr
    exact absurd ((hmem k).mpr (.inr hk)) hkr

/-- The ledger holds as long as the same rows are live and the segments show what they did. -/
theorem frame (hl : l.Describes a) (hs : b.Sound) (hlive : ∀ k, b.Live k ↔ a.Live k)
    (hsegment : ∀ o : Owner, o.IsStack → ∀ k ∈ l.held o, b.cell k = a.cell k) : l.Describes b :=
  ⟨hs, hl.nodup, hl.zero, hl.unique, fun k => (hlive k).trans (hl.live k), fun o ho hne =>
    (hl.laid o ho hne).frame (hsegment o ho)⟩

/-- Rows that are no segments may be written over, as long as they stay live. -/
theorem touch (hl : l.Describes a) (t : Arena.Touches F a b)
    (hF : ∀ k ∈ F, ∀ o : Owner, o.IsStack → k ∉ l.held o)
    (hlive : ∀ k ∈ F, (b.Live k ↔ a.Live k)) : l.Describes b :=
  hl.frame t.sound (t.live_iff hlive) fun o ho k hk => t.cell k fun hkF => hF k hkF o ho hk

/-- Segments are never stamped. -/
theorem mark_of_segment (hl : l.Describes a) (ho : o.IsStack) (hh : h ∈ l.held o) {x : Arena.Cell}
    (hc : a.cell h = some x) : x.mark = .blank := by
  obtain ⟨k, hk⟩ := List.getElem?_of_mem hh
  obtain ⟨y, hy, hholds⟩ := (hl.laid o ho (List.ne_nil_of_mem hh)).segment k h hk
  rw [hc] at hy
  cases hy
  exact hholds.blank

/-- Lowering the marks of all rows changes no segment. -/
theorem lower (hl : l.Describes a) (hs : b.Sound) {level : UInt32}
    (hc : ∀ k, b.cell k = (a.cell k).map fun x => { x with mark := Arena.lowerMark level x.mark }) :
    l.Describes b := by
  refine hl.frame hs (fun k => ?_) fun o ho k hk =>
    (hl.laid o ho (List.ne_nil_of_mem hk)).cell_lowered hc hk
  rw [Arena.live_iff_cell, Arena.live_iff_cell, hc]
  cases a.cell k <;> simp

/-! ## Stacks of an owner -/

variable {s : Stack} {v : Object}

theorem laid_of_head (hl : l.Describes a) (ho : o.IsStack)
    (hd : (l.held o).head? = some s.handle) : a.Laid (l.held o) (l.values o) :=
  hl.laid o ho fun hnil => by rw [hnil] at hd; cases hd

theorem newStack_spec (hl : l.Describes a) (hempty : l.held o = []) :
    (∃ h b, Stack.new a = .ok ⟨h⟩ b ∧ a.cell h = none ∧ Arena.Touches {h} a b ∧
      (l.set o [h] []).Describes b) ∨
    ∃ f, Stack.new a = .error f a ∧ a.OutOfStorage f := by
  rcases Arena.newStack_spec hl.sound with ⟨h, b, hok, -, hdead, ht, hlaid⟩ | hfail
  · left
    refine ⟨h, b, hok, hdead, ht, hl.relaid ht ?_ ?_ ?_ hlaid⟩
    · rintro k rfl
      exact List.mem_singleton_self k
    · intro k hk
      rw [hempty] at hk
      cases hk
    · intro k hk
      rw [List.mem_singleton] at hk
      exact .inr (hk ▸ hdead)
  · exact .inr hfail

/-- A push goes into the owner's segments or, if it fills the last of them, links a row that was not
live; or it fails for want of a segment and changes nothing. -/
theorem push_spec (hl : l.Describes a) (ho : o.IsStack) (hd : (l.held o).head? = some s.handle)
    (v : Object) :
    (∃ rows b, s.push v a = .ok () b ∧ rows.head? = some s.handle ∧ (∀ k ∈ l.held o, k ∈ rows) ∧
      (rows = l.held o ∨ (l.values o).length + 1 = segmentSize * (l.held o).length ∧
        ∃ new, rows = l.held o ++ [new]) ∧ Arena.Touches {k | k ∈ rows} a b ∧
      (l.set o rows (l.values o ++ [v])).Describes b) ∨
    ∃ f, s.push v a = .error f a ∧ a.OutOfStorage f ∧
      (l.values o).length % segmentSize + 1 = segmentSize ∧
      (l.held o)[(l.values o).length / segmentSize + 1]? = none ∧
      Arena.allocate segmentBytes .stack a = .error f a := by
  have hlaid := hl.laid_of_head ho hd
  rcases hlaid.push_spec hl.sound hd v with ⟨b, hrun, hr, hlb⟩ | ⟨new, b, hrun, hfilled, hdead, ht, hlb⟩ |
    ⟨f, hrun, hv, hfill, hlast, hstorage⟩
  · exact .inl ⟨l.held o, b, hrun, hd, fun _ hk => hk, .inl rfl, hr.toTouches,
      hl.relaid hr.toTouches (fun _ hk => hk) (fun _ hk => hk) (fun _ hk => .inl hk) hlb⟩
  · have hin : ∀ k, k ∈ l.held o ∨ k = new ↔ k ∈ l.held o ++ [new] := fun k => by simp
    have hnew : ∀ k ∈ l.held o ++ [new], k ∈ l.held o ∨ a.cell k = none := fun k hk => by
      rcases (hin k).mpr hk with hk | rfl
      · exact .inl hk
      · exact .inr hdead
    have ht' : Arena.Touches {k | k ∈ l.held o ++ [new]} a b := ht.mono fun k hk => (hin k).mp hk
    refine .inl ⟨l.held o ++ [new], b, hrun, ?_, fun k hk => List.mem_append_left _ hk,
      .inr ⟨hfilled, new, rfl⟩, ht', hl.relaid ht' (fun _ hk => hk)
        (fun _ hk => List.mem_append_left _ hk) hnew hlb⟩
    rw [List.head?_append, hd]
    rfl
  · exact .inr ⟨f, hrun, hv, hfill, hlast, hstorage⟩

/-- Values taken or replaced within the owner's segments. -/
theorem revalue (hl : l.Describes a) (t : Arena.Touches {k | k ∈ l.held o} a b)
    (hlaid : b.Laid (l.held o) vals) : (l.set o (l.held o) vals).Describes b :=
  hl.relaid t (fun _ hk => hk) (fun _ hk => hk) (fun _ hk => .inl hk) hlaid

/-- The open levels are counted on the save stack. -/
theorem depth_eq (hl : l.Describes a) (hsaves : a.saves = (l.held .saves).head?)
    (hnil : l.held .saves = [] → l.values .saves = []) :
    a.depth = .ok (UInt32.ofNat (l.values .saves).length) := by
  cases hd : (l.held .saves).head? with
  | none =>
    unfold Arena.depth
    rw [hsaves, hd, hnil (List.head?_eq_none_iff.mp hd)]
    rfl
  | some h =>
    exact (hl.laid_of_head (s := ⟨h⟩) (o := .saves) trivial hd).depth_eq hl.sound hsaves

end Describes

end Ledger

end BankedMemory
