import BankedMemory.Proofs.Arena.Moments
import BankedMemory.Proofs.Arena.Tiling

/-!
# What a moment changes

`Change` says once for all acts what they do to rows and free list, in whatever arena they are done:
nothing, but for a trade of capacities, or one row taken into use, added or given back. A `Trail` is
a list of moments each of which is such a change of the one before. What an arena goes through in a
run of calls is a trail, `trail_moments`, and so is all of it up to any moment; `Trail.listed` is
that every free row is on the free list at each moment.
-/

namespace BankedMemory.Arena

variable {α : Type} {m : ArenaM α} {a b : Arena} {h k : Handle} {e f : Entry} {limit : Nat}
  {p now : Moment} {ms before : List Moment}

/-- The rows are what they were, except that they may have traded storage. -/
structure SameRows (a b : Arena) : Prop where
  limit : b.limit = a.limit
  length : b.region.length = a.region.length
  freed : b.freed = a.freed
  size : b.table.size = a.table.size
  kind : ∀ i : Nat, b.table[i]?.map (·.kind) = a.table[i]?.map (·.kind)
  capacities : b.capacities.Perm a.capacities

/-- What an act makes of an arena. -/
inductive Change (a : Arena) : Moment → Prop where
  | same {b : Arena} (rows : SameRows a b) : Change a ⟨.other, b⟩
  | reuse {h : Handle} {e : Entry} {size : Nat} (content : Content)
      (first : a.freed.find? (a.hasRoom size) = some h) (row : a.table[h.toNat]? = some e) :
      Change a ⟨.allocated size, a.reuse h content⟩
  | append {size : Nat} (content : Content) (none : a.freed.find? (a.hasRoom size) = none)
      (room : a.table.size < 0x100000000) : Change a ⟨.allocated size, a.append size content⟩
  | free {h : Handle} {e : Entry} (live : a.entry h = .ok e) :
      Change a ⟨.freed h, { a with
        table := a.table.modify h.toNat fun e => { e with kind := .free }
        freed := a.freed ++ [h] }⟩

namespace SameRows

theorem refl (a : Arena) : SameRows a a := ⟨rfl, rfl, rfl, rfl, fun _ => rfl, .refl _⟩

/-- Other bytes in a region of the same length. -/
theorem overwrite (a : Arena) (start : Nat) (src : List UInt8) :
    SameRows a { a with region := a.region.overwrite start src } :=
  ⟨rfl, Region.length_overwrite .., rfl, rfl, fun _ => rfl, .refl _⟩

theorem modify (a : Arena) (n : Nat) {g : Entry → Entry} (hkind : ∀ e, (g e).kind = e.kind)
    (hcapacity : ∀ e, (g e).capacity = e.capacity) :
    SameRows a { a with table := a.table.modify n g } := by
  refine ⟨rfl, rfl, rfl, Array.size_modify .., fun i => ?_, .of_eq (capacities_modify hcapacity)⟩
  rw [Array.getElem?_modify]
  split
  · rw [Option.map_map]
    exact congrArg (Option.map · _) (funext hkind)
  · rfl

theorem lowerTopLevels (a : Arena) (level : UInt32) :
    SameRows a { a with table := a.table.map (lowerRow level) } := by
  refine ⟨rfl, rfl, rfl, Array.size_map .., fun i => ?_, .of_eq (capacities_lowered level)⟩
  rw [Array.getElem?_map, Option.map_map]
  exact congrArg (Option.map · _) (funext fun e => (lowerRow_place level e).2.2)

theorem exchange (live : a.entry h = .ok e) (live' : a.entry k = .ok f) :
    SameRows a { a with table := trade a.table h.toNat k.toNat e f } := by
  obtain ⟨hrow, -⟩ := entry_eq_ok_iff.mp live
  obtain ⟨hrow', -⟩ := entry_eq_ok_iff.mp live'
  refine ⟨rfl, rfl, rfl, ?_, fun i => ?_, capacities_trade hrow hrow'⟩
  · simp only [trade, Array.size_modify]
  · rcases eq_or_ne h.toNat k.toNat with heq | hne
    · rw [← heq] at hrow' ⊢
      cases hrow.symm.trans hrow'
      rw [trade_self hrow]
    · exact kind_trade hne hrow hrow' i

end SameRows

namespace Act

theorem arena_moment (act : Act m) (a : Arena) : (act.moment a).arena = m.after a := by
  unfold moment ArenaM.after
  cases m a <;> rfl

theorem change_allocate (size : Nat) (content : Content) (a : Arena) :
    Change a ((allocate size content).moment a) := by
  unfold moment Arena.allocate
  cases hfind : a.freed.find? (a.hasRoom size) with
  | some h =>
    have hroom := List.find?_some hfind
    unfold hasRoom at hroom
    cases hrow : a.table[h.toNat]? with
    | none => rw [hrow] at hroom; cases hroom
    | some e => exact .reuse content hfind hrow
  | none =>
    cases addWords a.region.length size with
    | error f => exact .same (.refl a)
    | ok length =>
      simp only
      split_ifs with hlimit hroom hlong
      · exact .same (.refl a)
      · exact .same (.refl a)
      · exact .same (.refl a)
      · exact .append content hfind (Nat.not_le.mp hroom)

theorem change_free (h : Handle) (a : Arena) : Change a ((free h).moment a) := by
  unfold moment Arena.free
  cases hentry : a.entry h with
  | error f => exact .same (.refl a)
  | ok e =>
    simp only
    split_ifs
    · exact .same (.refl a)
    · exact .free hentry

theorem change_write (h : Handle) (offset : Nat) (src : List UInt8) (a : Arena) :
    Change a ((write h offset src).moment a) := by
  unfold moment Arena.write
  cases a.span h offset src.length with
  | error f => exact .same (.refl a)
  | ok s =>
    simp only
    split_ifs
    · exact .same (.overwrite a _ _)
    · exact .same (.refl a)

theorem change_copyContents (src dst : Handle) (a : Arena) :
    Change a ((copyContents src dst).moment a) := by
  unfold moment Arena.copyContents
  cases a.entry src with
  | error f => exact .same (.refl a)
  | ok e =>
    cases a.entry dst with
    | error f => exact .same (.refl a)
    | ok f =>
      simp only
      split_ifs
      · exact .same (.refl a)
      · cases a.region.slice? e.address (e.address + e.capacity) with
        | none => exact .same (.refl a)
        | some bytes => exact .same (.overwrite a _ _)

theorem change_exchange (h k : Handle) (a : Arena) : Change a ((exchange h k).moment a) := by
  unfold moment Arena.exchange
  cases hentry : a.entry h with
  | error f => exact .same (.refl a)
  | ok e =>
    cases hentry' : a.entry k with
    | error f => exact .same (.refl a)
    | ok f => exact .same (.exchange hentry hentry')

theorem change_setMark (h : Handle) (mark : Mark) (a : Arena) :
    Change a ((setMark h mark).moment a) := by
  unfold moment Arena.setMark
  cases a.entry h with
  | error f => exact .same (.refl a)
  | ok e => exact .same (.modify a _ (fun _ => rfl) fun _ => rfl)

/-- Every act is a change. -/
theorem change (act : Act m) (a : Arena) : Change a (act.moment a) := by
  cases act with
  | allocate size content => exact change_allocate size content a
  | free h => exact change_free h a
  | write h offset src => exact change_write h offset src a
  | setMark h mark => exact change_setMark h mark a
  | lowerTopLevels level => exact .same (.lowerTopLevels a level)
  | copyContents src dst => exact change_copyContents src dst a
  | exchange h k => exact change_exchange h k a
  | count => exact .same ⟨rfl, rfl, rfl, rfl, fun _ => rfl, .refl _⟩
  | openSaves h => exact .same ⟨rfl, rfl, rfl, rfl, fun _ => rfl, .refl _⟩

end Act

/-! ## Trails -/

/-- Moments each of which is a change of the one before, the latest first, and the arena they come
to. -/
inductive Trail (limit : Nat) : List Moment → Arena → Prop where
  | start : Trail limit [⟨.other, .empty limit⟩] (.empty limit)
  | next {ms : List Moment} {a : Arena} {p : Moment} (trail : Trail limit ms a)
      (change : Change a p) : Trail limit (p :: ms) p.arena

/-- What a program leads through goes on from where it is started, up to where it ends. -/
theorem Script.trail (script : Script m) (trail : Trail limit ms a) :
    Trail limit (script.moments a ++ ms) (m.after a) := by
  induction script generalizing a ms with
  | pure x => exact trail
  | throw f => exact trail
  | look f =>
    rw [ArenaM.after_reading]
    exact trail
  | act step =>
    rw [← step.arena_moment]
    exact trail.next (step.change a)
  | @bind _ _ m g first rest ih ihrest =>
    have hfirst := ih trail
    unfold moments
    cases hrun : m a with
    | ok x b =>
      -- the rest goes on where the first part came to, so its moments stand before those
      rw [ArenaM.after_of_ok hrun] at hfirst
      rw [ArenaM.after_bind_of_ok hrun, List.append_assoc]
      exact ihrest x hfirst
    | error f b =>
      rw [ArenaM.after_of_error hrun] at hfirst
      rw [ArenaM.after_of_error (EStateM.bind_of_error hrun)]
      exact hfirst
  | map g script ih =>
    rw [ArenaM.after_map]
    exact ih trail
  | either c yes no ihyes ihno =>
    unfold moments
    split_ifs with hc
    · exact ihyes hc trail
    · exact ihno hc trail
  | @orUndo _ m undo script undoing ih ihundo =>
    have hfirst := ih trail
    unfold moments
    cases hrun : m a with
    | ok x b =>
      rw [ArenaM.after_of_ok hrun] at hfirst
      rw [ArenaM.after_of_ok (ArenaM.orUndo_of_ok hrun)]
      exact hfirst
    | error f b =>
      rw [ArenaM.after_of_error hrun] at hfirst
      simp only
      by_cases hstop : f.stops
      · rw [ArenaM.after_orUndo_of_stop hrun hstop, if_pos hstop]
        exact hfirst
      · rw [ArenaM.after_orUndo_of_error hrun hstop, if_neg hstop, List.append_assoc]
        exact ihundo hfirst

theorem trail_moments (limit : Nat) (calls : List Call) :
    Trail limit (moments limit calls) (afterCalls limit calls) := by
  induction calls with
  | nil => exact .start
  | cons call calls ih => exact call.script.trail ih

/-- All that happened up to some moment is a trail to there. -/
theorem Trail.suffix (trail : Trail limit ms a) (hs : now :: before <:+ ms) :
    Trail limit (now :: before) now.arena := by
  induction trail with
  | start =>
    rcases List.suffix_cons_iff.mp hs with heq | hs
    · cases heq
      exact .start
    · cases List.suffix_nil.mp hs
  | next trail change ih =>
    rcases List.suffix_cons_iff.mp hs with heq | hs
    · cases heq
      exact trail.next change
    · exact ih hs

/-! ## The free list -/

/-- The free list has each free row once, and no other. -/
structure Listed (a : Arena) : Prop where
  size_le : a.table.size ≤ 0x100000000
  nodup : a.freed.Nodup
  mem : ∀ h : Handle, h ∈ a.freed ↔ a.table[h.toNat]?.map (·.kind) = some .free

theorem Listed.not_mem_of_live (ha : a.Listed) (live : a.entry h = .ok e) : h ∉ a.freed := by
  obtain ⟨row, hk⟩ := entry_eq_ok_iff.mp live
  rw [ha.mem, row]
  exact fun heq => hk (Option.some.inj heq)

theorem Change.listed (change : Change a p) (ha : a.Listed) : p.arena.Listed := by
  cases change with
  | same rows =>
    refine ⟨rows.size ▸ ha.size_le, rows.freed ▸ ha.nodup, fun k => ?_⟩
    rw [rows.freed, rows.kind, ha.mem]
  | @reuse h e size content first row =>
    rw [reuse_eq row]
    refine ⟨(Array.size_modify ..).trans_le ha.size_le, ha.nodup.erase h, fun k => ?_⟩
    simp only
    rw [ha.nodup.mem_erase_iff, ha.mem,
      getElem?_modify_row (fun e => { e with mark := .blank, kind := .used content }) row]
    rcases eq_or_ne k h with rfl | hne
    · simp
    · rw [if_neg (toNat_ne hne)]
      simp [hne]
  | @append size content none room =>
    rw [append_eq]
    refine ⟨?_, ha.nodup, fun k => ?_⟩
    · simp only
      rw [Array.size_push]
      omega
    · simp only
      rw [ha.mem, Array.getElem?_push]
      split_ifs with hk
      · rw [hk, Array.getElem?_eq_none (Nat.le_refl _)]
        simp
      · rfl
  | @free h e live =>
    obtain ⟨row, -⟩ := entry_eq_ok_iff.mp live
    have hnew := ha.not_mem_of_live live
    refine ⟨(Array.size_modify ..).trans_le ha.size_le,
      List.nodup_append_comm.mp (List.nodup_cons.mpr ⟨hnew, ha.nodup⟩), fun k => ?_⟩
    simp only
    rw [List.mem_append, List.mem_singleton, ha.mem,
      getElem?_modify_row (fun e => { e with kind := .free }) row]
    rcases eq_or_ne k h with rfl | hne
    · simp
    · rw [if_neg (toNat_ne hne)]
      simp [hne]

theorem listed_empty (limit : Nat) : (Arena.empty limit).Listed := by
  have hs := sound_empty limit
  exact ⟨hs.size_le, hs.freed_nodup, fun h => by rw [hs.mem_freed, Option.map_eq_some_iff]⟩

theorem Trail.listed (trail : Trail limit ms a) : a.Listed := by
  induction trail with
  | start => exact listed_empty limit
  | next _ change ih => exact change.listed ih

end BankedMemory.Arena
