import BankedMemory.Proofs.Arena.Relocation

/-!
# Addresses are not observable

Storage can move. Segments, stacks, arrays and save levels reach the bytes through handles alone, so
every call gives one answer in relocated arenas and leaves them relocated, with whatever handles and
values it is made: `addresses_unobservable`. A chain that runs in a circle is no exception, as a
walk goes no further than there are rows.
-/

namespace BankedMemory

namespace Arena

variable {a b : Arena} {h k : Handle} {i n : Nat}

/-! ## What is read -/

namespace Relocated

theorem read (hab : Relocated a b) (w : Nat) : b.read h i w = a.read h i w :=
  read_congr hab.placed hab.placed' (hab.cell h) i w

theorem readSlot (hab : Relocated a b) : b.readSlot h i = a.readSlot h i := by
  unfold Arena.readSlot
  rw [hab.read]

theorem header (hab : Relocated a b) (seg : Handle) : b.header seg = a.header seg := by
  unfold Arena.header
  rw [hab.read]

theorem chainBound (hab : Relocated a b) : b.chainBound = a.chainBound := by
  unfold Arena.chainBound
  rw [hab.size]

theorem walkFrom (hab : Relocated a b) (seg : Handle) : b.walkFrom seg n = a.walkFrom seg n := by
  induction n generalizing seg with
  | zero => rfl
  | succ n ih =>
    unfold Arena.walkFrom
    simp only [hab.header, ih]

theorem walk (hab : Relocated a b) (seg : Handle) : b.walk seg = a.walk seg := by
  unfold Arena.walk
  rw [hab.chainBound, hab.walkFrom]

theorem chainFrom (hab : Relocated a b) (seg : Handle) : b.chainFrom seg n = a.chainFrom seg n := by
  induction n generalizing seg with
  | zero => rfl
  | succ n ih =>
    unfold Arena.chainFrom
    simp only [hab.header, ih]

theorem chain (hab : Relocated a b) (seg : Handle) : b.chain seg = a.chain seg := by
  unfold Arena.chain
  rw [hab.chainBound, hab.chainFrom]

theorem readSlots (hab : Relocated a b) : b.readSlots h i n = a.readSlots h i n := by
  induction n generalizing i with
  | zero => rfl
  | succ n ih =>
    unfold Arena.readSlots
    rw [hab.readSlot, ih]

theorem valuesFrom (hab : Relocated a b) (seg : Handle) :
    b.valuesFrom seg n = a.valuesFrom seg n := by
  induction n generalizing seg with
  | zero => rfl
  | succ n ih =>
    unfold Arena.valuesFrom
    simp only [hab.header, hab.readSlots, ih]

theorem usage (hab : Relocated a b) : b.usage = a.usage := by
  have hbytes : ∀ c : Arena, c.usage.bytesInUse = ((c.outlines.toList.filter
      (·.stored.isSome)).map (·.capacity)).foldr (· + ·) 0 := fun c => by
    rw [← capacities_liveRows, List.foldr_map]
    rfl
  have hsame : b.usage.bytesInUse = a.usage.bytesInUse := by rw [hbytes, hbytes, hab.outlines]
  have hlive : b.usage.live = a.usage.live := by
    show b.table.size - 1 - b.freed.length = a.table.size - 1 - a.freed.length
    rw [hab.size, hab.freed]
  have hfree : b.usage.free = a.usage.free := congrArg List.length hab.freed
  have hcount : b.usage.collectable = a.usage.collectable := hab.collectable
  rw [Usage.mk.injEq]
  exact ⟨hlive, hfree, hsame, hcount⟩

/-! ### Stacks -/

variable {s : Stack} {op : String}

theorem count (hab : Relocated a b) : s.count b = s.count a := by
  unfold Stack.count
  rw [hab.walk]

theorem isEmpty (hab : Relocated a b) : s.isEmpty b = s.isEmpty a := by
  unfold Stack.isEmpty
  rw [hab.count]

theorem topSegment (hab : Relocated a b) : s.topSegment b = s.topSegment a := by
  unfold Stack.topSegment
  simp only [hab.walk, hab.header]

theorem segmentAfter (hab : Relocated a b) (seg : Handle) :
    Stack.segmentAfter b seg op n = Stack.segmentAfter a seg op n := by
  induction n generalizing seg with
  | zero => rfl
  | succ n ih =>
    unfold Stack.segmentAfter
    simp only [hab.header, ih]

theorem place (hab : Relocated a b) : s.place b i op = s.place a i op := by
  unfold Stack.place
  simp only [hab.count, hab.segmentAfter]

theorem bottom (hab : Relocated a b) : s.bottom i b = s.bottom i a := by
  unfold Stack.bottom
  simp only [hab.place, hab.readSlot]

theorem indexFromTop (hab : Relocated a b) : s.indexFromTop b i op = s.indexFromTop a i op := by
  unfold Stack.indexFromTop
  rw [hab.count]

theorem top (hab : Relocated a b) : s.top i b = s.top i a := by
  unfold Stack.top
  simp only [hab.indexFromTop, hab.bottom]

theorem listing (hab : Relocated a b) : s.listing b = s.listing a := by
  unfold Stack.listing Stack.toList
  rw [hab.chainBound, hab.valuesFrom]

/-! ### Save levels and arrays -/

theorem saveStack (hab : Relocated a b) : b.saveStack = a.saveStack := by
  unfold Arena.saveStack
  rw [hab.saves]

theorem depth (hab : Relocated a b) : b.depth = a.depth := by
  unfold Arena.depth
  rw [hab.saves]
  simp only [hab.count]

theorem nextLevel (hab : Relocated a b) : b.nextLevel = a.nextLevel := by
  unfold Arena.nextLevel
  rw [hab.depth]

theorem preserved (hab : Relocated a b) : b.preserved h = a.preserved h := by
  unfold Arena.preserved
  rcases hab.entry_cases h with ⟨hfail, hfail'⟩ | ⟨e, e', live, live', hsame⟩
  · rw [hfail, hfail']
    rfl
  · have hmark := (stored_of_outline (entry_eq_ok_iff.mp live).2 hsame).1
    rw [live, live', bind_eq_of_ok rfl, bind_eq_of_ok rfl, hmark, hab.depth]

theorem arrayGet (hab : Relocated a b) {array : Object} {i : Int32} :
    Arena.arrayGet array i b = Arena.arrayGet array i a := by
  unfold Arena.arrayGet
  simp only [hab.readSlot]

end Relocated

/-! ## What is done -/

theorem blind_writeSlot {o : Object} : Blind (writeSlot h i o) := blind_write

theorem blind_setHeader {hd : Header} : Blind (setHeader h hd) := blind_write

theorem blind_newSegment : Blind newSegment :=
  blind_allocate.bind fun seg => blind_setHeader.bind fun _ => .pure seg

end Arena

namespace Stack

open Arena (Blind Relocated)

variable {s : Stack} {i : Nat} {o : Object}

theorem blind_new : Blind Stack.new := Arena.blind_newSegment.bind fun _ => .pure _

theorem blind_nextSegment {hd : Header} : Blind (nextSegment hd) := by
  unfold nextSegment
  split
  · exact Arena.blind_newSegment
  · refine Blind.reading_bind (fun _ _ hab => hab.header _) fun n _ => ?_
    exact Arena.blind_setHeader.bind fun _ => .pure _

theorem blind_push : Blind (s.push o) := by
  refine Blind.reading_bind (fun _ _ hab => hab.walk _) fun w _ => ?_
  split
  · refine blind_nextSegment.bind fun next => ?_
    exact Arena.blind_writeSlot.bind fun _ => Arena.blind_setHeader
  · exact Arena.blind_writeSlot.bind fun _ => Arena.blind_setHeader

theorem blind_pop : Blind s.pop := by
  refine Blind.reading_bind (fun _ _ hab => hab.topSegment) fun p _ => ?_
  exact Arena.blind_setHeader.bind fun _ => .reading fun _ _ hab => hab.readSlot

theorem blind_setBottom : Blind (s.setBottom i o) :=
  Blind.reading_bind (fun _ _ hab => hab.place) fun _ _ => Arena.blind_writeSlot

theorem blind_setTop : Blind (s.setTop i o) :=
  Blind.reading_bind (fun _ _ hab => hab.indexFromTop) fun _ _ => blind_setBottom

theorem blind_free : Blind s.free :=
  Blind.reading_bind (fun _ _ hab => hab.chain _) fun _ _ => .forM fun _ _ => Arena.blind_free

end Stack

namespace Arena

variable {h k : Handle}

theorem blind_openSaveStack : Blind openSaveStack := by
  refine Blind.reading_bind (fun a b hab => ?_) fun missing _ => ?_
  · rw [hab.saves]
  · split
    · refine Stack.blind_new.bind fun s a b hab => ?_
      exact .ok ⟨⟨hab.placed.region_le, hab.placed.inside, hab.placed.disjoint⟩,
        ⟨hab.placed'.region_le, hab.placed'.inside, hab.placed'.disjoint⟩,
        hab.outlines, hab.freed, hab.length, hab.limit, hab.collectable, rfl⟩
    · exact .pure ()

theorem blind_save : Blind save := by
  refine blind_openSaveStack.bind fun _ => ?_
  refine Blind.reading_bind (fun _ _ hab => hab.nextLevel) fun level _ => Blind.refuse ?_
  refine Stack.blind_new.bind fun records => ?_
  refine Blind.reading_bind (fun _ _ hab => by rw [hab.saveStack]) fun stack _ => ?_
  exact (Stack.blind_push.orUndo Stack.blind_free).bind fun _ => .pure _

theorem blind_addRecord : Blind (addRecord h k) := by
  refine Blind.reading_bind (fun _ _ hab => by rw [hab.saveStack, hab.top]) fun saved _ => ?_
  split
  · exact Stack.blind_push
  · exact .throw _

theorem blind_copyAside {content : Content} {e : Entry} : Blind (copyAside content h e) := by
  refine blind_allocateCollectable.bind fun copy => ?_
  refine blind_copyContents.bind fun _ => ?_
  refine blind_setMark.bind fun _ => ?_
  exact blind_addRecord.orUndo blind_free

theorem blind_checkLevel {level : UInt32} : Blind (checkLevel level) := by
  unfold checkLevel
  split
  · exact .throw _
  · exact .pure ()

theorem blind_preserve {content : Content} : Blind (preserve content h) := by
  refine Blind.reading_bind (fun _ _ hab => hab.depth) fun level _ a b hab => ?_
  rcases hab.entry_cases h with ⟨hfail, hfail'⟩ | ⟨e, e', live, live', hsame⟩
  · rw [EStateM.bind_of_error (ArenaM.reading_of_error hfail),
      EStateM.bind_of_error (ArenaM.reading_of_error hfail')]
    exact .error hab
  · -- of the row its capacity and its mark are used, and those are the same
    have hcapacity : e'.capacity = e.capacity := congrArg Outline.capacity hsame
    have hmark := (stored_of_outline (entry_eq_ok_iff.mp live).2 hsame).1
    have hcopy : copyAside content h e' = copyAside content h e := by
      unfold copyAside
      rw [hcapacity, hmark]
    rw [ArenaM.reading_bind live, ArenaM.reading_bind live', hcopy, hmark]
    have hstamp : Blind (do checkLevel level; setMark h (e.mark.withTopLevel level)) :=
      blind_checkLevel.bind fun _ => blind_setMark
    split
    · exact (blind_copyAside.bind fun _ => hstamp) hab
    · exact hstamp hab

theorem blind_undo {r : Record} : Blind (undo r) := blind_exchange.bind fun _ => blind_free

theorem blind_undoAll {records : Stack} {n : Nat} : Blind (undoAll records n) := by
  induction n with
  | zero => exact .throw _
  | succ n ih =>
    refine Blind.reading_bind (fun _ _ hab => hab.isEmpty) fun done _ => ?_
    split
    · exact .pure ()
    · refine Stack.blind_pop.bind fun o => ?_
      split
      · exact blind_undo.bind fun _ => ih
      · exact .throw _

theorem blind_restore : Blind restore := by
  refine Blind.reading_bind (fun _ _ hab => hab.depth) fun level _ => Blind.refuse ?_
  refine Blind.reading_bind (fun _ _ hab => by rw [hab.saveStack]) fun stack _ => ?_
  refine Stack.blind_pop.bind fun o => ?_
  split
  · refine Blind.reading_bind (fun _ _ hab => by rw [hab.chainBound]) fun bound _ => ?_
    refine blind_undoAll.bind fun _ => ?_
    exact Stack.blind_free.bind fun _ => Blind.refuse blind_lowerTopLevels.map
  · exact .throw _

theorem blind_fillNew {size : Nat} : Blind (fillNew h size) := by
  refine Blind.reading_bind (fun _ _ hab => hab.depth) fun level _ => ?_
  refine blind_checkLevel.bind fun _ => blind_setMark.bind fun _ => ?_
  exact .forM fun i _ => blind_writeSlot

theorem blind_newArray {size : Nat} : Blind (newArray size) := by
  unfold newArray
  split
  · exact .pure _
  · split
    · exact .throw _
    · refine blind_allocateCollectable.bind fun h => ?_
      exact (blind_fillNew.orUndo blind_free).bind fun _ => .pure _

theorem blind_arrayPut {array : Object} {i : Int32} {o : Object} : Blind (arrayPut array i o) := by
  refine Blind.reading_bind (fun _ _ _ => rfl) fun v _ => ?_
  refine Blind.reading_bind (fun _ _ _ => rfl) fun slot _ => ?_
  refine Blind.reading_bind (fun _ _ hab => hab.preserved) fun kept _ => ?_
  split
  · exact blind_preserve.bind fun _ => blind_writeSlot
  · exact blind_writeSlot

end Arena

/-! ## Calls -/

/-- The reply with the place of a row left out. -/
def Reply.unplaced : Reply → Reply
  | .entry e => .entry e.unplaced
  | reply => reply

namespace Arena

namespace Call

/-- The call, as it is answered to a client that cannot see where rows lie. -/
def ask (call : Call) : ArenaM Reply := Reply.unplaced <$> call.run

end Call

/-- What is answered to the calls, made one after the other. -/
def answers : List Call → Arena → List (Except Fault Reply)
  | [], _ => []
  | call :: calls, a => call.ask.answer a :: answers calls (call.ask.after a)

def afterAll : List Call → Arena → Arena
  | [], a => a
  | call :: calls, a => afterAll calls (call.ask.after a)

variable {a b : Arena} {call : Call}

/-- An entry is found in both arenas or in neither, and is answered without its place. -/
theorem blind_ask_entry (h : Handle) : Blind (Call.entry h).ask := by
  intro a b hab
  have hread : ∀ c : Arena, (Call.entry h).ask c = (Reply.unplaced <$> ArenaM.reading fun a => do
      return Reply.entry (← a.entry h)) c := fun c => rfl
  rw [hread, hread]
  rcases hab.entry_cases h with ⟨hfail, hfail'⟩ | ⟨e, e', live, live', hsame⟩
  · rw [EStateM.map_of_error (ArenaM.reading_of_error (bind_eq_of_error hfail)),
      EStateM.map_of_error (ArenaM.reading_of_error (bind_eq_of_error hfail'))]
    exact .error hab
  · have hplace := unplaced_of_outline (entry_eq_ok_iff.mp live).2 hsame
    rw [EStateM.map_of_ok (ArenaM.reading_of_ok (bind_eq_of_ok live)),
      EStateM.map_of_ok (ArenaM.reading_of_ok (bind_eq_of_ok live'))]
    show Alike (.ok (Reply.entry e.unplaced) a) (.ok (Reply.entry e'.unplaced) b)
    rw [hplace]
    exact .ok hab

theorem alike_run (hab : Relocated a b) (hentry : ∀ h, call ≠ .entry h) :
    Alike (call.run a) (call.run b) := by
  have hdone : ∀ {m : ArenaM Unit}, Blind m → Alike ((do m; return Reply.done : ArenaM Reply) a)
      ((do m; return Reply.done : ArenaM Reply) b) := fun hm => (hm.bind fun _ => .pure _) hab
  have hread : ∀ {α : Type} {f : Arena → Except Fault α} {g : α → Reply}, f b = f a →
      Alike (ArenaM.reading (fun a => do return g (← f a)) a)
        (ArenaM.reading (fun a => do return g (← f a)) b) := by
    intro α f g hsame
    unfold ArenaM.reading
    simp only [hsame]
    cases f a with
    | ok x => exact .ok hab
    | error e => exact .error hab
  cases call with
  | usage => exact hread (f := fun a => .ok a.usage) (by rw [hab.usage])
  | allocate size content => exact blind_allocate.map hab
  | allocateCollectable size content => exact blind_allocateCollectable.map hab
  | entry h => exact absurd rfl (hentry h)
  | free h => exact hdone blind_free
  | setMark h mark => exact hdone blind_setMark
  | lowerTopLevels level => exact blind_lowerTopLevels.map hab
  | read h offset width => exact hread (f := (·.read h offset width)) (hab.read width)
  | write h offset bytes => exact hdone blind_write
  | readSlot h index => exact hread (f := (·.readSlot h index)) hab.readSlot
  | writeSlot h index o => exact hdone blind_writeSlot
  | copyContents src dst => exact hdone blind_copyContents
  | exchange h k => exact hdone blind_exchange
  | newArray size => exact blind_newArray.map hab
  | arrayPut array i o => exact hdone blind_arrayPut
  | arrayGet array i => exact hread hab.arrayGet
  | save => exact blind_save.map hab
  | restore => exact hdone blind_restore
  | depth => exact hread (g := fun n => .number n.toNat) hab.depth
  | preserved h => exact hread (f := (·.preserved h)) hab.preserved
  | preserve content h => exact hdone blind_preserve
  | newStack => exact (Stack.blind_new.bind fun _ => .pure _) hab
  | push s o => exact hdone Stack.blind_push
  | pop s => exact Stack.blind_pop.map hab
  | count s => exact hread hab.count
  | isEmpty s => exact hread hab.isEmpty
  | bottom s i => exact hread hab.bottom
  | top s i => exact hread hab.top
  | setBottom s i o => exact hdone Stack.blind_setBottom
  | setTop s i o => exact hdone Stack.blind_setTop
  | freeStack s => exact hdone Stack.blind_free
  | listing s => exact hread hab.listing

theorem alike_ask (hab : Relocated a b) : Alike (call.ask a) (call.ask b) := by
  by_cases hentry : ∃ h, call = .entry h
  · obtain ⟨h, rfl⟩ := hentry
    exact blind_ask_entry h hab
  · exact (alike_run hab fun h heq => hentry ⟨h, heq⟩).map

/-- Calls on relocated arenas are answered alike, fault for fault, and leave relocated arenas. -/
theorem addresses_unobservable (hab : Relocated a b) (calls : List Call) :
    answers calls b = answers calls a ∧ Relocated (afterAll calls a) (afterAll calls b) := by
  induction calls generalizing a b with
  | nil => exact ⟨rfl, hab⟩
  | cons call calls ih =>
    obtain ⟨hanswer, hafter⟩ := (alike_ask hab).answer_after
    obtain ⟨hanswers, hmoved⟩ := ih hafter
    refine ⟨?_, hmoved⟩
    unfold answers
    rw [hanswer, hanswers]

/-- Two strings have traded places. One is written, copied to the other and freed, and an array is
changed in a save level that is then undone. -/
theorem addresses_unobservable_traded :
    let a := (Call.allocate 16 .string).run.after ((Call.allocate 16 .string).run.after (.empty 2048))
    let b := (Call.exchange 1 2).run.after a
    let calls := [.write 1 0 (List.replicate 16 7), .copyContents 1 2, .newArray 2, .save,
      .arrayPut (.composite .array { size := 2, ent := 3 }) 1 (.integer 5), .free 1,
      .newArray 1, .restore, .entry 2, .read 2 0 16]
    a.table ≠ b.table ∧ answers calls b = answers calls a ∧
      Relocated (afterAll calls a) (afterAll calls b) := by
  intro a b calls
  have allocated : Reachable 2048 a :=
    (Reachable.fresh.call (.allocate 16 .string)).call (.allocate 16 .string)
  have traded : Reachable 2048 b := allocated.call (.exchange 1 2)
  have hab : Relocated a b := ⟨allocated.reach.2.placed, traded.reach.2.placed, by decide +kernel,
    rfl, rfl, rfl, rfl, rfl⟩
  exact ⟨by decide +kernel, addresses_unobservable hab calls⟩

end Arena

end BankedMemory
