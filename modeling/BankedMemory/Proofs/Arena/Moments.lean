import BankedMemory.Proofs.Arena.Calls

/-!
# Moments of a run

A call is made of many acts on rows and bytes, and there is a moment after each of them, also inside
a call and also on the way to a failure. A `Script` spells out the acts of a program. It is indexed
by the program itself, so it cannot be one of another program, and `Script.moments` runs the program
to find what the arena goes through. `moments` is what it goes through in a run of calls.
-/

namespace BankedMemory.Arena

/-- What an act did to the rows of the table. -/
inductive Event where
  | allocated (size : Nat)
  | freed (h : Handle)
  | other
deriving DecidableEq, Repr

/-- An arena and what it came from. -/
structure Moment where
  event : Event
  arena : Arena
deriving DecidableEq

/-- The acts programs are made of. -/
inductive Act : {α : Type} → ArenaM α → Type where
  | allocate (size : Nat) (content : Content) : Act (Arena.allocate size content)
  | free (h : Handle) : Act (Arena.free h)
  | write (h : Handle) (offset : Nat) (src : List UInt8) : Act (Arena.write h offset src)
  | setMark (h : Handle) (mark : Mark) : Act (Arena.setMark h mark)
  | lowerTopLevels (level : UInt32) : Act (Arena.lowerTopLevels level)
  | copyContents (src dst : Handle) : Act (Arena.copyContents src dst)
  | exchange (h k : Handle) : Act (Arena.exchange h k)
  | count : Act (modify fun a => { a with collectable := a.collectable + 1 } : ArenaM Unit)
  | openSaves (h : Handle) : Act (modify fun a => { a with saves := some h } : ArenaM Unit)

/-- How a program is made of acts. -/
inductive Script : {α : Type} → ArenaM α → Type 1 where
  | pure {α : Type} (x : α) : Script (Pure.pure x)
  | throw {α : Type} (f : Fault) : Script (MonadExcept.throw f : ArenaM α)
  | look {α : Type} (f : Arena → Except Fault α) : Script (ArenaM.reading f)
  | act {α : Type} {m : ArenaM α} (act : Act m) : Script m
  | bind {α β : Type} {m : ArenaM α} {k : α → ArenaM β} (first : Script m)
      (rest : ∀ x, Script (k x)) : Script (m >>= k)
  | map {α β : Type} {m : ArenaM α} (f : α → β) (script : Script m) : Script (f <$> m)
  | either {α : Type} {m n : ArenaM α} (c : Prop) [Decidable c] (yes : c → Script m)
      (no : ¬c → Script n) : Script (if c then m else n)
  | orUndo {α : Type} {m : ArenaM α} {undo : ArenaM Unit} (script : Script m)
      (undoing : Script undo) : Script (m.orUndo undo)

/-- What an act does if it succeeds. -/
def Act.event {α : Type} {m : ArenaM α} : Act m → Event
  | .allocate size _ => .allocated size
  | .free h => .freed h
  | _ => .other

/-- The moment an act leads to. If it failed it has done nothing to the rows. -/
def Act.moment {α : Type} {m : ArenaM α} (act : Act m) (a : Arena) : Moment :=
  match m a with
  | .ok _ b => ⟨act.event, b⟩
  | .error _ b => ⟨.other, b⟩

/-- The moments a program leads through, the latest first. -/
def Script.moments {α : Type} {m : ArenaM α} (script : Script m) (a : Arena) : List Moment :=
  match script with
  | pure _ | throw _ | look _ => []
  | act step => [step.moment a]
  | bind (m := m) first rest =>
    match m a with
    | .ok x b => (rest x).moments b ++ first.moments a
    | .error _ _ => first.moments a
  | map _ script => script.moments a
  | either c yes no => if hc : c then (yes hc).moments a else (no hc).moments a
  | orUndo (m := m) script undoing =>
    match m a with
    | .ok _ _ => script.moments a
    | .error f b =>
      if f.stops then script.moments a else undoing.moments b ++ script.moments a

namespace Script

/-! ## Segments and stacks -/

def forM {α : Type} {f : α → ArenaM Unit} (body : ∀ x, Script (f x)) :
    (l : List α) → Script (l.forM f)
  | [] => .pure ()
  | x :: l => .bind (body x) fun _ => forM body l

def writeSlot (h : Handle) (i : Nat) (o : Object) : Script (Arena.writeSlot h i o) :=
  .act (.write h i o.encode)

def setHeader (h : Handle) (hd : Header) : Script (Arena.setHeader h hd) :=
  .act (.write h 0 hd.toSlot.bytes)

def newSegment : Script Arena.newSegment :=
  .bind (.act (.allocate _ _)) fun seg => .bind (setHeader seg _) fun _ => .pure seg

def newStack : Script Stack.new := .bind newSegment fun _ => .pure _

def nextSegment : (hd : Header) → Script (Stack.nextSegment hd)
  | ⟨none, _⟩ => newSegment
  | ⟨some next, _⟩ =>
    .bind (.look _) fun _ => .bind (setHeader next _) fun _ => .pure next

def push (s : Stack) (o : Object) : Script (s.push o) :=
  .bind (.look _) fun w =>
    .either _
      (fun _ => .bind (nextSegment w.header) fun _ => .bind (.pure _) fun h =>
        .bind (writeSlot w.segment (1 + h.top) o) fun _ => setHeader w.segment _)
      (fun _ => .bind (.pure _) fun h =>
        .bind (writeSlot w.segment (1 + h.top) o) fun _ => setHeader w.segment _)

def pop (s : Stack) : Script s.pop :=
  .bind (.look _) fun p => .bind (setHeader p.1 _) fun _ => .look _

def setBottom (s : Stack) (i : Nat) (o : Object) : Script (s.setBottom i o) :=
  .bind (.look _) fun p => writeSlot p.segment p.slot o

def setTop (s : Stack) (i : Nat) (o : Object) : Script (s.setTop i o) :=
  .bind (.look _) fun i => setBottom s i o

def freeStack (s : Stack) : Script s.free :=
  .bind (.look _) fun segs => forM (fun h => .act (.free h)) segs.reverse

/-! ## Save levels -/

def allocateCollectable (size : Nat) (content : Content) :
    Script (Arena.allocateCollectable size content) :=
  .bind (.act (.allocate size content)) fun h => .bind (.act .count) fun _ => .pure h

def openSaveStack : Script Arena.openSaveStack :=
  .bind (.look _) fun _ =>
    .either _ (fun _ => .bind newStack fun s => .act (.openSaves s.handle)) (fun _ => .pure ())

/-- A check that refuses to go on. -/
def refuse {α : Type} {c : Prop} [Decidable c] {f : Fault} {go : Unit → ArenaM α}
    (rest : Script (go ())) : Script (if c then MonadExcept.throw f >>= go else go ()) :=
  .either c (fun _ => .bind (.throw f) fun _ => rest) (fun _ => rest)

def save : Script Arena.save :=
  .bind openSaveStack fun _ => .bind (.look _) fun _ => refuse <|
    .bind newStack fun records => .bind (.look _) fun _ =>
      .bind (.orUndo (push _ _) (freeStack records)) fun _ => .pure _

def addRecord (source copy : Handle) : Script (Arena.addRecord source copy) :=
  .bind (.look _) fun o => match o with
    | .save _ => push _ _
    | .invalid | .null | .mark | .boolean _ | .integer _ | .real _ | .composite _ _ | .record _ =>
      .throw _

def copyAside (content : Content) (h : Handle) (e : Entry) : Script (Arena.copyAside content h e) :=
  .bind (allocateCollectable _ _) fun copy => .bind (.act (.copyContents h copy)) fun _ =>
    .bind (.act (.setMark copy _)) fun _ => .orUndo (addRecord h copy) (.act (.free copy))

def checkLevel (level : UInt32) : Script (Arena.checkLevel level) :=
  .either _ (fun _ => .throw _) fun _ => .pure _

def preserve (content : Content) (h : Handle) : Script (Arena.preserve content h) :=
  .bind (.look _) fun level => .bind (.look _) fun e =>
    .either _
      (fun _ => .bind (copyAside content h e) fun _ =>
        .bind (checkLevel level) fun _ => .act (.setMark h _))
      (fun _ => .bind (checkLevel level) fun _ => .act (.setMark h _))

def undo (r : Record) : Script (Arena.undo r) :=
  .bind (.act (.exchange r.source r.copy)) fun _ => .act (.free r.copy)

def undoAll (records : Stack) : (n : Nat) → Script (Arena.undoAll records n)
  | 0 => .throw _
  | n + 1 => .bind (.look _) fun _ => .either _ (fun _ => .pure ()) fun _ =>
    .bind (pop records) fun o => match o with
      | .record r => .bind (undo r) fun _ => undoAll records n
      | .invalid | .null | .mark | .boolean _ | .integer _ | .real _ | .composite _ _ | .save _ =>
        .throw _

def restore : Script Arena.restore :=
  .bind (.look _) fun _ => refuse <| .bind (.look _) fun stack => .bind (pop stack) fun o =>
    match o with
    | .save level =>
      .bind (.look _) fun n => .bind (undoAll ⟨level.records⟩ n) fun _ =>
        .bind (freeStack ⟨level.records⟩) fun _ => refuse (.map _ (.act (.lowerTopLevels _)))
    | .invalid | .null | .mark | .boolean _ | .integer _ | .real _ | .composite _ _ | .record _ =>
      .throw _

/-! ## Arrays and calls -/

def fillNew (h : Handle) (size : Nat) : Script (Arena.fillNew h size) :=
  .bind (.look _) fun level => .bind (checkLevel level) fun _ => .bind (.act (.setMark h _)) fun _ =>
    forM (fun i => writeSlot h i .null) (List.range size)

def newArray (size : Nat) : Script (Arena.newArray size) :=
  .either _ (fun _ => .pure _) fun _ => .either _ (fun _ => .throw _) fun _ =>
    .bind (allocateCollectable _ _) fun h =>
      .bind (.orUndo (fillNew h size) (.act (.free h))) fun _ => .pure _

def arrayPut (array : Object) (i : Int32) (o : Object) : Script (Arena.arrayPut array i o) :=
  .bind (.look _) fun v => .bind (.look _) fun slot => .bind (.look _) fun _ =>
    .either _ (fun _ => .bind (preserve .array v.ent) fun _ => writeSlot v.ent slot o)
      (fun _ => writeSlot v.ent slot o)

/-- A call that gives back nothing. -/
def done {m : ArenaM Unit} (script : Script m) : Script (do m; return Reply.done) :=
  .bind script fun _ => .pure _

end Script

/-- Every call is made of acts. -/
def Call.script : (call : Call) → Script call.run
  | usage | entry _ | read _ _ _ | readSlot _ _ | arrayGet _ _ | depth | preserved _ | count _
  | isEmpty _ | bottom _ _ | top _ _ | listing _ => by
    -- what is looked at is read off the call, which has to be unfolded for it
    dsimp only [Call.run]
    exact .look _
  | allocate size content => .map _ (.act (.allocate size content))
  | allocateCollectable size content => .map _ (.allocateCollectable size content)
  | free h => .done (.act (.free h))
  | setMark h mark => .done (.act (.setMark h mark))
  | lowerTopLevels level => .map _ (.act (.lowerTopLevels level))
  | write h offset bytes => .done (.act (.write h offset bytes))
  | writeSlot h index o => .done (.writeSlot h index o)
  | copyContents src dst => .done (.act (.copyContents src dst))
  | exchange h k => .done (.act (.exchange h k))
  | newArray size => .map _ (.newArray size)
  | arrayPut array i o => .done (.arrayPut array i o)
  | save => .map _ .save
  | restore => .done .restore
  | preserve content h => .done (.preserve content h)
  | newStack => .bind .newStack fun _ => .pure _
  | push s o => .done (.push s o)
  | pop s => .map _ (.pop s)
  | setBottom s i o => .done (.setBottom s i o)
  | setTop s i o => .done (.setTop s i o)
  | freeStack s => .done (.freeStack s)

/-- The arena after a run of calls, the latest call first. -/
def afterCalls (limit : Nat) : List Call → Arena
  | [] => .empty limit
  | call :: calls => call.run.after (afterCalls limit calls)

/-- The moments of a run of calls, the latest first; the last one is the fresh arena. -/
def moments (limit : Nat) : List Call → List Moment
  | [] => [⟨.other, .empty limit⟩]
  | call :: calls => call.script.moments (afterCalls limit calls) ++ moments limit calls

end BankedMemory.Arena
