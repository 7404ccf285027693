import BankedMemory.Proofs.Arena.Supply
import Mathlib.Logic.Relation

/-!
# Elementary steps

Whatever a program does to an arena it does by elementary steps: `Step` has one constructor for each
of them, with all its conditions. Which rows may trade storage is left open: `Step T` has only the
trades that `T` allows. `Steps T a m` says that `m`, started in the sound arena `a`, gets on by such
steps alone, whether it succeeds or fails and wherever it stops. So what every step keeps is kept
by every program.
-/

namespace BankedMemory

namespace Arena

/-- Which handles may trade storage, as things stand in an arena. -/
abbrev Trading := Arena → Handle → Handle → Prop

inductive Step (T : Trading) : Arena → Arena → Prop where
  /-- Take the free row freed earliest among those with room into use. -/
  | reuse {a : Arena} {h : Handle} {e : Entry} {size : Nat} (content : Content)
      (first : a.freed.find? (a.hasRoom size) = some h) (row : a.table[h.toNat]? = some e)
      (free : e.kind = .free) (room : size ≤ e.capacity) : Step T a (a.reuse h content)
  /-- Add a row at the end of the region, no free row having room. -/
  | append {a : Arena} {size : Nat} (content : Content)
      (none : a.freed.find? (a.hasRoom size) = none) (fits : a.region.length + size ≤ a.limit)
      (possible : a.region.length + size ≤ longestRegion) (room : a.table.size < 0x100000000) :
      Step T a (a.append size content)
  | free {a : Arena} {h : Handle} {e : Entry} (live : a.entry h = .ok e)
      (owned : e.kind ≠ .reserved) :
      Step T a { a with
        table := a.table.modify h.toNat fun e => { e with kind := .free }
        freed := a.freed ++ [h] }
  /-- Write bytes within one live row. -/
  | overwrite {a : Arena} {h : Handle} {e : Entry} {start : Nat} {src : List UInt8}
      (live : a.entry h = .ok e) (after : e.address ≤ start)
      (before : start + src.length ≤ e.address + e.capacity) :
      Step T a { a with region := a.region.overwrite start src }
  | setMark {a : Arena} {h : Handle} {e : Entry} (live : a.entry h = .ok e) (mark : Mark) :
      Step T a { a with table := a.table.modify h.toNat fun e => { e with mark } }
  | lowerTopLevels {a : Arena} (level : UInt32) :
      Step T a { a with table := a.table.map (lowerRow level) }
  /-- Two live rows trade storage and marks; a row may be both. -/
  | exchange {a : Arena} {h k : Handle} {e f : Entry} (live : a.entry h = .ok e)
      (live' : a.entry k = .ok f) (allowed : T a h k) :
      Step T a { a with table := trade a.table h.toNat k.toNat e f }
  | count {a : Arena} : Step T a { a with collectable := a.collectable + 1 }
  | openSaves {a : Arena} (s : Handle) : Step T a { a with saves := some s }

/-- Any number of steps. -/
def Reach (T : Trading) : Arena → Arena → Prop := Relation.ReflTransGen (Step T)

variable {T : Trading} {a b : Arena} {h k : Handle} {e f : Entry}

theorem Step.sound (step : Step T a b) (hs : a.Sound) : b.Sound := by
  cases step with
  | reuse content first row free room => exact (reuse_spec hs row free content).1.sound
  | append content none fits possible room => exact sound_append hs fits possible room content
  | @free h e live owned =>
    have h0 : h ≠ 0 := by
      rintro rfl
      exact owned ((hs.reserved (entry_eq_ok_iff.mp live).1).mpr rfl)
    obtain ⟨b, hrun, hr, -⟩ := free_spec hs h0 (cell_eq_of_entry live)
    unfold Arena.free at hrun
    rw [live] at hrun
    simp only at hrun
    rw [if_neg owned] at hrun
    cases hrun
    exact hr.sound
  | overwrite live after before => exact (overwrite_row hs live after before).sound
  | @setMark h e live mark =>
    exact (modify_row hs (fun e => { e with mark }) fun _ => ⟨rfl, rfl, rfl⟩).sound
  | lowerTopLevels level =>
    obtain ⟨n, b, hrun, hr, -⟩ := lowerTopLevels_spec hs level
    cases hrun
    exact hr.sound
  | @exchange h k e f live live' allowed =>
    rcases eq_or_ne h k with rfl | hne
    · cases live.symm.trans live'
      rw [trade_self (entry_eq_ok_iff.mp live).1]
      exact hs
    · obtain ⟨b, hrun, hr, -⟩ :=
        exchange_spec hs hne (cell_eq_of_entry live) (cell_eq_of_entry live')
      unfold Arena.exchange at hrun
      rw [live, live'] at hrun
      cases hrun
      exact hr.sound
  | count =>
    exact ⟨hs.region_le, hs.length_le, hs.size_pos, hs.size_le, hs.inside, hs.apart, hs.reserved,
      hs.freed_nodup, hs.mem_freed⟩
  | openSaves s => exact hs.with_saves _

theorem Reach.sound (reach : Reach T a b) (hs : a.Sound) : b.Sound := by
  induction reach with
  | refl => exact hs
  | tail _ step ih => exact step.sound ih

/-- What each step keeps, starting from a sound arena, any number of steps keeps. -/
theorem Reach.keeps {P : Arena → Prop} (hstep : ∀ b c, Step T b c → b.Sound → P b → P c)
    (reach : Reach T a b) (hs : a.Sound) (hp : P a) : P b := by
  induction reach with
  | refl => exact hp
  | tail before step ih => exact hstep _ _ step (Reach.sound before hs) ih

end Arena

namespace ArenaM

variable {α β : Type}

/-- The arena a program leaves, whether it succeeds or fails. -/
def after (m : ArenaM α) (a : Arena) : Arena :=
  match m a with
  | .ok _ b => b
  | .error _ b => b

variable {m : ArenaM α} {k : α → ArenaM β} {f : Arena → Except Fault α} {undo : ArenaM Unit}
  {a b : Arena} {x : α} {e : Fault}

theorem after_of_ok (h : m a = .ok x b) : m.after a = b := by
  unfold after; rw [h]

theorem after_of_error (h : m a = .error e b) : m.after a = b := by
  unfold after; rw [h]

theorem after_reading : (reading f).after a = a := by
  unfold after reading
  cases f a <;> rfl

theorem after_bind_of_ok (h : m a = .ok x b) : (m >>= k).after a = (k x).after b := by
  unfold after
  rw [EStateM.bind_of_ok h]

/-- A program that runs into an error fails with the arena it leaves. -/
theorem exists_error_after (hfails : (m a matches .error ..) = true) :
    ∃ f, m a = .error f (m.after a) := by
  cases hrun : m a with
  | ok x b =>
    rw [hrun] at hfails
    cases hfails
  | error f b => exact ⟨f, by rw [after_of_error hrun]⟩

/-- What a program answers is no matter of the arena. -/
theorem after_bind_pure {y : β} : (m >>= fun _ => pure y).after a = m.after a := by
  cases hrun : m a with
  | ok x b =>
    rw [after_of_ok hrun, after_bind_of_ok hrun]
    rfl
  | error f b =>
    rw [after_of_error hrun]
    exact after_of_error (EStateM.bind_of_error hrun)

theorem after_map {g : α → β} : (g <$> m).after a = m.after a := by
  cases h : m a with
  | ok x b => rw [after_of_ok h, after_of_ok (EStateM.map_of_ok h)]
  | error e b => rw [after_of_error h, after_of_error (EStateM.map_of_error h)]

theorem after_orUndo_of_stop (h : m a = .error e b) (hstop : e.stops) :
    (m.orUndo undo).after a = b :=
  after_of_error (orUndo_of_stop h hstop)

theorem after_orUndo_of_error (h : m a = .error e b) (hgoes : ¬e.stops) :
    (m.orUndo undo).after a = undo.after b := by
  unfold after orUndo
  rw [h]
  simp only
  rw [if_neg hgoes]
  cases undo b <;> rfl

end ArenaM

namespace Arena

variable {α β : Type}

/-- Started in `a`, the program gets on by elementary steps. -/
def Steps (T : Trading) (a : Arena) (m : ArenaM α) : Prop := a.Sound → Reach T a (m.after a)

variable {T : Trading} {a b : Arena} {h k : Handle} {e f : Entry} {m : ArenaM α}
  {g : α → ArenaM β} {x : α}

theorem Steps.sound (hm : Steps T a m) (hs : a.Sound) (hok : m a = .ok x b) : b.Sound := by
  have reach := hm hs
  rw [ArenaM.after_of_ok hok] at reach
  exact reach.sound hs

/-- A program that fails changing nothing, or does one step, gets on by steps. -/
theorem Steps.of_cases
    (h : (∃ x b, m a = .ok x b ∧ (b = a ∨ Step T a b)) ∨ ∃ e, m a = .error e a) : Steps T a m := by
  intro _
  obtain ⟨x, b, hok, rfl | step⟩ | ⟨e, hfail⟩ := h
  · rw [ArenaM.after_of_ok hok]
    exact .refl
  · rw [ArenaM.after_of_ok hok]
    exact .single step
  · rw [ArenaM.after_of_error hfail]
    exact .refl

theorem Steps.pure (x : α) : Steps T a (Pure.pure x : ArenaM α) :=
  .of_cases (.inl ⟨x, a, rfl, .inl rfl⟩)

theorem Steps.throw (e : Fault) : Steps T a (MonadExcept.throw e : ArenaM α) :=
  .of_cases (.inr ⟨e, rfl⟩)

theorem Steps.reading (f : Arena → Except Fault α) : Steps T a (ArenaM.reading f) := by
  apply Steps.of_cases
  cases hf : f a with
  | ok x => exact .inl ⟨x, a, ArenaM.reading_of_ok hf, .inl rfl⟩
  | error e => exact .inr ⟨e, ArenaM.reading_of_error hf⟩

theorem Steps.bind (hm : Steps T a m)
    (hg : ∀ x b, m a = .ok x b → b.Sound → Steps T b (g x)) : Steps T a (m >>= g) := by
  intro hs
  have first := hm hs
  cases hrun : m a with
  | ok x b =>
    rw [ArenaM.after_of_ok hrun] at first
    have hb := first.sound hs
    rw [ArenaM.after_bind_of_ok hrun]
    exact first.trans (hg x b hrun hb hb)
  | error e b =>
    rw [ArenaM.after_of_error hrun] at first
    rw [ArenaM.after_of_error (EStateM.bind_of_error hrun)]
    exact first

/-- What comes after a look at the arena starts from the same arena. -/
theorem Steps.reading_bind {f : Arena → Except Fault α} (hg : ∀ x, f a = .ok x → Steps T a (g x)) :
    Steps T a (ArenaM.reading f >>= g) := by
  refine (Steps.reading f).bind fun x b hrun _ => ?_
  unfold ArenaM.reading at hrun
  split at hrun
  · next hf =>
    cases hrun
    exact hg _ hf
  · cases hrun

/-- A check that refuses to go on leaves the arena as it is. -/
theorem Steps.refuse {c : Prop} [Decidable c] {f : Fault} {go : Unit → ArenaM α}
    (hgo : Steps T a (go ())) : Steps T a (if c then MonadExcept.throw f >>= go else go ()) := by
  split
  · exact (Steps.throw f).bind fun _ _ hrun _ => nomatch hrun
  · exact hgo

theorem Steps.map {f : α → β} (hm : Steps T a m) : Steps T a (f <$> m) := by
  rw [← bind_pure_comp]
  exact hm.bind fun x b _ _ => .pure _

theorem Steps.orUndo {undo : ArenaM Unit} (hm : Steps T a m) (hu : ∀ b, Steps T b undo) :
    Steps T a (m.orUndo undo) := by
  intro hs
  have first := hm hs
  cases hrun : m a with
  | ok x b =>
    rw [ArenaM.after_of_ok hrun] at first
    rw [ArenaM.after_of_ok (ArenaM.orUndo_of_ok hrun)]
    exact first
  | error e b =>
    rw [ArenaM.after_of_error hrun] at first
    by_cases hstop : e.stops
    · rwa [ArenaM.after_orUndo_of_stop hrun hstop]
    · rw [ArenaM.after_orUndo_of_error hrun hstop]
      exact first.trans (hu b (first.sound hs))

theorem Steps.forM {f : α → ArenaM Unit} {l : List α} (hf : ∀ x ∈ l, ∀ b, Steps T b (f x)) :
    Steps T a (l.forM f) := by
  induction l generalizing a with
  | nil => exact .pure ()
  | cons x l ih =>
    exact (hf x (List.mem_cons_self ..) a).bind fun _ b _ _ =>
      ih fun y hy => hf y (List.mem_cons_of_mem _ hy)

/-! ## The operations on rows and bytes -/

theorem steps_allocate (size : Nat) (content : Content) : Steps T a (allocate size content) := by
  intro hs
  refine Steps.of_cases ?_ hs
  obtain ⟨h, e, first, row, free, room, hok⟩ | ⟨hnone, ⟨fits, possible, room, hok⟩ | ⟨f, hfail, -⟩⟩ :=
    allocate_cases hs size content
  · exact .inl ⟨_, _, hok, .inr (.reuse content first row free room)⟩
  · exact .inl ⟨_, _, hok, .inr (.append content hnone fits possible room)⟩
  · exact .inr ⟨f, hfail⟩

theorem steps_allocateCollectable (size : Nat) (content : Content) :
    Steps T a (allocateCollectable size content) := by
  refine (steps_allocate size content).bind fun h b _ _ => ?_
  refine Steps.bind (.of_cases (.inl ⟨(), _, rfl, .inr .count⟩)) fun _ c _ _ => ?_
  exact .pure h

theorem steps_free : Steps T a (free h) := by
  apply Steps.of_cases
  unfold free
  cases live : a.entry h with
  | error f => exact .inr ⟨f, rfl⟩
  | ok e =>
    by_cases hres : e.kind = .reserved
    · exact .inr ⟨.reservedEntity, if_pos hres⟩
    · exact .inl ⟨(), _, if_neg hres, .inr (.free live hres)⟩

/-- No sum on the way to an element exceeds a word. A product that does is noticed before. -/
def NoOverflow (offset width : Nat) : Prop :=
  offset * width < 0x10000000000000000 → offset * width + width < 0x10000000000000000

instance {offset width : Nat} : Decidable (NoOverflow offset width) :=
  inferInstanceAs (Decidable (_ → _))

/-- What comes of asking for an element that does not lie in the entity. -/
def missed (offset width : Nat) : Fault :=
  if NoOverflow offset width then .outsideStorage else .overflow

theorem missed_of_noOverflow {i w : Nat} (hw : NoOverflow i w) : missed i w = .outsideStorage :=
  if_pos hw

/-- How asking for an element outside its entity ends: in an error, or with a stop at the last
offset whose product is a word. -/
structure Missed (offset width : Nat) (f : Fault) : Prop where
  error : NoOverflow offset width → f.report.condition = .unregistered
  stop : ¬NoOverflow offset width → f.stops

theorem missed_spec (i w : Nat) : Missed i w (missed i w) where
  error hw := by
    rw [missed_of_noOverflow hw]
    rfl
  stop hover := by
    unfold missed
    rw [if_neg hover]
    rfl

/-- An element has a span just when it lies in the row. -/
theorem Placed.span_of_entry (hp : a.Placed) (he : a.entry h = .ok e) (i w : Nat) :
    a.span h i w = if i * w + w ≤ e.capacity then
      .ok ⟨e.address + i * w, e.address + i * w + w⟩ else .error (missed i w) := by
  have hcap : e.capacity ≤ 0x7FFFFFFFFFFFFFFF := hp.capacity_le he
  split
  · next hfit => exact hp.span_eq he hfit
  · next hfit =>
    unfold span
    rw [bind_eq_of_ok he]
    simp only
    by_cases hword : i * w < 0x10000000000000000
    · rw [if_neg (Nat.not_le.mpr hword)]
      by_cases hsum : i * w + w < 0x10000000000000000
      · rw [missed_of_noOverflow fun _ => hsum, bind_eq_of_ok (addWords_eq hsum),
          if_pos (Nat.lt_of_not_le hfit)]
        rfl
      · have hover : addWords (i * w) w = .error .overflow := if_neg hsum
        have hmissed : missed i w = .overflow := if_neg fun hw => hsum (hw hword)
        rw [bind_eq_of_error hover, hmissed]
    · rw [if_pos (Nat.le_of_not_lt hword), missed_of_noOverflow fun hlt => absurd hlt hword]
      rfl

theorem read_of_dead (hdead : a.cell h = none) (i w : Nat) :
    a.read h i w = .error .noSuchEntity := by
  have hspan : a.span h i w = .error .noSuchEntity := bind_eq_of_error (entry_of_dead hdead)
  exact bind_eq_of_error hspan

/-- What a read gives is decided by the cell. -/
theorem Placed.read_of_cell {x : Cell} (hp : a.Placed) (hc : a.cell h = some x) (i w : Nat) :
    a.read h i w = if i * w + w ≤ x.bytes.length then .ok ((x.bytes.drop (i * w)).take w)
      else .error (missed i w) := by
  obtain ⟨e, he, rfl⟩ := entry_of_cell hc
  have hlen := hp.length_cell he hc
  simp only at hlen ⊢
  rw [hlen]
  split
  · next hfit => rw [hp.read_eq he hfit, Region.drop_take_run hfit]
  · next hfit =>
    have hspan := hp.span_of_entry he i w
    rw [if_neg hfit] at hspan
    exact bind_eq_of_error hspan

theorem read_congr (hp : a.Placed) (hp' : b.Placed) (hcell : b.cell h = a.cell h) (i w : Nat) :
    b.read h i w = a.read h i w := by
  cases hc : a.cell h with
  | none => rw [read_of_dead hc, read_of_dead (hcell.trans hc)]
  | some x => rw [hp.read_of_cell hc, hp'.read_of_cell (hcell.trans hc)]

/-- A write fails and changes nothing, or stays within the row. -/
theorem write_cases (hp : a.Placed) (h : Handle) (i : Nat) (src : List UInt8) :
    (∃ e, a.entry h = .ok e ∧ i * src.length + src.length ≤ e.capacity ∧
      write h i src a =
        .ok () { a with region := a.region.overwrite (e.address + i * src.length) src }) ∨
    ∃ f, write h i src a = .error f a := by
  unfold write
  cases he : a.entry h with
  | error f =>
    have hspan : a.span h i src.length = .error f := bind_eq_of_error he
    exact .inr ⟨f, by rw [hspan]⟩
  | ok e =>
    rw [hp.span_of_entry he]
    by_cases hfit : i * src.length + src.length ≤ e.capacity
    · have hin := hp.inside (entry_eq_ok_iff.mp he).1
      refine .inl ⟨e, rfl, hfit, ?_⟩
      rw [if_pos hfit]
      simp only
      rw [if_pos ⟨by omega, by omega⟩]
    · rw [if_neg hfit]
      exact .inr ⟨_, rfl⟩

theorem steps_write {i : Nat} {src : List UInt8} : Steps T a (write h i src) := by
  intro hs
  refine Steps.of_cases ?_ hs
  obtain ⟨e, live, hfit, hok⟩ | hfail := write_cases hs.placed h i src
  · exact .inl ⟨(), _, hok, .inr (.overwrite live (Nat.le_add_right ..) (by omega))⟩
  · exact .inr hfail

theorem steps_setMark {mark : Mark} : Steps T a (setMark h mark) := by
  apply Steps.of_cases
  unfold setMark
  cases live : a.entry h with
  | error f => exact .inr ⟨f, rfl⟩
  | ok e => exact .inl ⟨(), _, rfl, .inr (.setMark live mark)⟩

theorem steps_lowerTopLevels {level : UInt32} : Steps T a (lowerTopLevels level) :=
  .of_cases (.inl ⟨_, _, rfl, .inr (.lowerTopLevels level)⟩)

/-- A copy fails and changes nothing, or stays within the row it goes to. -/
theorem copyContents_cases (hp : a.Placed) :
    (∃ e f, a.entry h = .ok e ∧ a.entry k = .ok f ∧ e.capacity ≤ f.capacity ∧
      copyContents h k a = .ok () { a with
        region := a.region.overwrite f.address (a.region.run e.address e.capacity) }) ∨
    ∃ f, copyContents h k a = .error f a := by
  unfold copyContents
  cases he : a.entry h with
  | error f => exact .inr ⟨f, rfl⟩
  | ok e =>
    cases hf : a.entry k with
    | error g => exact .inr ⟨g, rfl⟩
    | ok f =>
      simp only
      split
      · exact .inr ⟨_, rfl⟩
      · next hle =>
        rw [Region.slice?_eq_run (hp.inside (entry_eq_ok_iff.mp he).1)]
        exact .inl ⟨e, f, rfl, rfl, by omega, rfl⟩

theorem steps_copyContents : Steps T a (copyContents h k) := by
  intro hs
  refine Steps.of_cases ?_ hs
  obtain ⟨e, f, live, live', hle, hok⟩ | hfail := copyContents_cases (h := h) (k := k) hs.placed
  · have hlen := Region.length_run (hs.inside (entry_eq_ok_iff.mp live).1)
    exact .inl ⟨(), _, hok, .inr (.overwrite live' (Nat.le_refl _) (by omega))⟩
  · exact .inr hfail

theorem steps_exchange (allowed : a.Live h → a.Live k → T a h k) : Steps T a (exchange h k) := by
  apply Steps.of_cases
  unfold exchange
  cases live : a.entry h with
  | error f => exact .inr ⟨f, rfl⟩
  | ok e =>
    cases live' : a.entry k with
    | error g => exact .inr ⟨g, rfl⟩
    | ok f =>
      exact .inl ⟨(), _, rfl, .inr (.exchange live live' (allowed ⟨e, live⟩ ⟨f, live'⟩))⟩

end Arena

end BankedMemory
