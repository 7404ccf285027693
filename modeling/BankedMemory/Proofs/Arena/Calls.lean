import BankedMemory.Arena.Call
import BankedMemory.Proofs.Arena.Steps

/-!
# Every call is a run of steps

Segments, stacks, arrays and save levels are programs over rows and bytes, so each call a client can
make gets on by elementary steps, with whatever handles and values it is made and whatever the
bytes of the arena spell. Only a call for a trade and `restore` let rows trade storage, and
`Call.Trades` says which. `Reachable` is every arena that calls lead to.
-/

namespace BankedMemory

namespace Arena

variable {T : Trading} {a : Arena} {h k : Handle}

theorem steps_writeSlot {i : Nat} {o : Object} : Steps T a (writeSlot h i o) := steps_write

/-! ## Segments and stacks -/

theorem steps_setHeader {hd : Header} : Steps T a (setHeader h hd) := steps_write

theorem steps_newSegment : Steps T a newSegment := by
  refine (steps_allocate segmentBytes .stack).bind fun seg b _ _ => ?_
  exact steps_setHeader.bind fun _ c _ _ => .pure seg

end Arena

namespace Stack

open Arena (Steps Trading)

variable {T : Trading} {a : Arena} {s : Stack}

theorem steps_new : Steps T a Stack.new :=
  Arena.steps_newSegment.bind fun _ _ _ _ => .pure _

theorem steps_nextSegment {hd : Header} : Steps T a (nextSegment hd) := by
  unfold nextSegment
  split
  · exact Arena.steps_newSegment
  · refine Steps.reading_bind fun n _ => ?_
    exact Arena.steps_setHeader.bind fun _ _ _ _ => .pure _

theorem steps_push {o : Object} : Steps T a (s.push o) := by
  refine Steps.reading_bind fun w _ => ?_
  split
  · refine steps_nextSegment.bind fun next b _ _ => ?_
    exact Arena.steps_writeSlot.bind fun _ _ _ _ => Arena.steps_setHeader
  · exact Arena.steps_writeSlot.bind fun _ _ _ _ => Arena.steps_setHeader

theorem steps_pop : Steps T a s.pop := by
  refine Steps.reading_bind fun p _ => ?_
  exact Arena.steps_setHeader.bind fun _ _ _ _ => .reading _

theorem steps_setBottom {i : Nat} {o : Object} : Steps T a (s.setBottom i o) :=
  Steps.reading_bind fun _ _ => Arena.steps_writeSlot

theorem steps_setTop {i : Nat} {o : Object} : Steps T a (s.setTop i o) :=
  Steps.reading_bind fun _ _ => steps_setBottom

theorem steps_free : Steps T a s.free :=
  Steps.reading_bind fun _ _ => .forM fun _ _ _ => Arena.steps_free

end Stack

namespace Arena

variable {T : Trading} {a : Arena} {h k : Handle}

/-! ## Save levels -/

theorem steps_openSaveStack : Steps T a openSaveStack := by
  refine Steps.reading_bind fun missing _ => ?_
  split
  · refine Stack.steps_new.bind fun s b _ _ => ?_
    exact .of_cases (.inl ⟨(), _, rfl, .inr (.openSaves s.handle)⟩)
  · exact .pure ()

theorem steps_save : Steps T a save := by
  refine steps_openSaveStack.bind fun _ b _ _ => ?_
  refine Steps.reading_bind fun level _ => Steps.refuse ?_
  refine Stack.steps_new.bind fun records c _ _ => ?_
  refine Steps.reading_bind fun stack _ => ?_
  refine Steps.bind ?_ fun _ _ _ _ => .pure _
  exact Stack.steps_push.orUndo fun _ => Stack.steps_free

theorem steps_addRecord : Steps T a (addRecord h k) := by
  refine Steps.reading_bind fun saved _ => ?_
  split
  · exact Stack.steps_push
  · exact .throw _

theorem steps_copyAside {content : Content} {e : Entry} : Steps T a (copyAside content h e) := by
  refine (steps_allocateCollectable e.capacity content).bind fun copy b _ _ => ?_
  refine steps_copyContents.bind fun _ c _ _ => ?_
  refine steps_setMark.bind fun _ d _ _ => ?_
  exact steps_addRecord.orUndo fun _ => steps_free

theorem steps_checkLevel {level : UInt32} : Steps T a (checkLevel level) := by
  unfold checkLevel
  split
  · exact .throw _
  · exact .pure ()

theorem steps_preserve {content : Content} : Steps T a (preserve content h) := by
  refine Steps.reading_bind fun level _ => Steps.reading_bind fun e _ => ?_
  have hstamp : ∀ b, Steps T b (do checkLevel level; setMark h (e.mark.withTopLevel level)) :=
    fun b => steps_checkLevel.bind fun _ _ _ _ => steps_setMark
  split
  · exact steps_copyAside.bind fun _ b _ _ => hstamp b
  · exact hstamp a

theorem steps_undo {r : Record} (allowed : a.Live r.source → a.Live r.copy → T a r.source r.copy) :
    Steps T a (undo r) :=
  (steps_exchange allowed).bind fun _ _ _ _ => steps_free

/-- Every trade that undoing the records of a level comes to, `n` at most, is allowed. -/
def UndoTrades (T : Trading) (records : Stack) : Nat → Arena → Prop
  | 0, _ => True
  | n + 1, a => ∀ r b, records.pop a = .ok (.record r) b →
      (b.Live r.source → b.Live r.copy → T b r.source r.copy) ∧
        ∀ c, undo r b = .ok () c → UndoTrades T records n c

theorem steps_undoAll {records : Stack} {n : Nat} (allowed : UndoTrades T records n a) :
    Steps T a (undoAll records n) := by
  induction n generalizing a with
  | zero => exact .throw _
  | succ n ih =>
    refine Steps.reading_bind fun done _ => ?_
    split
    · exact .pure ()
    · refine Stack.steps_pop.bind fun o b hpop _ => ?_
      split
      · next r =>
        obtain ⟨trade, later⟩ := allowed r b hpop
        exact (steps_undo trade).bind fun _ c hundo _ => ih (later c hundo)
      · exact .throw _

/-- Every trade that undoing the latest level comes to is allowed. -/
def RestoreTrades (T : Trading) (a : Arena) : Prop :=
  ∀ level b, a.saveStack.pop a = .ok (.save level) b →
    UndoTrades T ⟨level.records⟩ b.chainBound b

theorem steps_restore (allowed : RestoreTrades T a) : Steps T a restore := by
  refine Steps.reading_bind fun level _ => Steps.refuse ?_
  refine Steps.reading_bind fun stack hstack => ?_
  cases hstack
  refine Stack.steps_pop.bind fun o b hpop _ => ?_
  split
  · next level =>
    refine Steps.reading_bind fun bound hbound => ?_
    cases hbound
    refine (steps_undoAll (allowed level b hpop)).bind fun _ c _ _ => ?_
    refine Stack.steps_free.bind fun _ d _ _ => ?_
    exact Steps.refuse steps_lowerTopLevels.map
  · exact .throw _

/-! ## Arrays -/

theorem steps_fillNew {size : Nat} : Steps T a (fillNew h size) := by
  refine Steps.reading_bind fun level _ => steps_checkLevel.bind fun _ b _ _ => ?_
  exact steps_setMark.bind fun _ c _ _ => .forM fun i _ d => steps_writeSlot

theorem steps_newArray {size : Nat} : Steps T a (newArray size) := by
  unfold newArray
  split
  · exact .pure _
  · split
    · exact .throw _
    · refine (steps_allocateCollectable (size * Slot.width) .array).bind fun h b _ _ => ?_
      refine Steps.bind ?_ fun _ _ _ _ => .pure _
      exact steps_fillNew.orUndo fun _ => steps_free

theorem steps_arrayPut {array : Object} {i : Int32} {o : Object} :
    Steps T a (arrayPut array i o) := by
  refine Steps.reading_bind fun v _ => Steps.reading_bind fun slot _ => ?_
  refine Steps.reading_bind fun kept _ => ?_
  split
  · exact steps_preserve.bind fun _ b _ _ => steps_writeSlot
  · exact steps_writeSlot

/-! ## Calls -/

/-- Every trade of storage the call comes to is allowed. -/
def Call.Trades (T : Trading) (a : Arena) : Call → Prop
  | .exchange h k => a.Live h → a.Live k → T a h k
  | .restore => RestoreTrades T a
  | _ => True

theorem steps_run {call : Call} (trades : call.Trades T a) : Steps T a call.run := by
  have hdone : ∀ {m : ArenaM Unit}, Steps T a m → Steps T a (do m; return Reply.done) :=
    fun hm => hm.bind fun _ _ _ _ => .pure _
  cases call with
  | allocate size content => exact (steps_allocate size content).map
  | allocateCollectable size content => exact (steps_allocateCollectable size content).map
  | free h => exact hdone steps_free
  | setMark h mark => exact hdone steps_setMark
  | lowerTopLevels level => exact steps_lowerTopLevels.map
  | write h offset bytes => exact hdone steps_write
  | writeSlot h index o => exact hdone steps_writeSlot
  | copyContents src dst => exact hdone steps_copyContents
  | exchange h k => exact hdone (steps_exchange trades)
  | newArray size => exact steps_newArray.map
  | arrayPut array i o => exact hdone steps_arrayPut
  | save => exact steps_save.map
  | restore => exact hdone (steps_restore trades)
  | preserve content h => exact hdone steps_preserve
  | newStack => exact Stack.steps_new.bind fun _ _ _ _ => .pure _
  | push s o => exact hdone Stack.steps_push
  | pop s => exact Stack.steps_pop.map
  | setBottom s i o => exact hdone Stack.steps_setBottom
  | setTop s i o => exact hdone Stack.steps_setTop
  | freeStack s => exact hdone Stack.steps_free
  | _ =>
    unfold Call.run
    exact .reading _

/-- The arenas that calls lead to from a fresh one, with whatever handles and values they are made
and whether they succeed, fail or stop. -/
inductive Reachable (limit : Nat) : Arena → Prop where
  | fresh : Reachable limit (.empty limit)
  | call {a : Arena} (reached : Reachable limit a) (call : Call) :
      Reachable limit (call.run.after a)

/-- Any two rows may trade storage. -/
def anyTrade : Trading := fun _ _ _ => True

theorem undoTrades_anyTrade {records : Stack} {n : Nat} : UndoTrades anyTrade records n a := by
  induction n generalizing a with
  | zero => trivial
  | succ n ih => exact fun _ _ _ => ⟨fun _ _ => trivial, fun _ _ => ih⟩

theorem trades_anyTrade (call : Call) : call.Trades anyTrade a := by
  cases call with
  | exchange h k => exact fun _ _ => trivial
  | restore => exact fun _ _ _ => undoTrades_anyTrade
  | _ => trivial

theorem Reachable.reach {limit : Nat} (reached : Reachable limit a) :
    Reach anyTrade (.empty limit) a ∧ a.Sound := by
  induction reached with
  | fresh => exact ⟨.refl, sound_empty limit⟩
  | call reached call ih =>
    have steps := steps_run (trades_anyTrade call) ih.2
    exact ⟨ih.1.trans steps, steps.sound ih.2⟩

end Arena

end BankedMemory
