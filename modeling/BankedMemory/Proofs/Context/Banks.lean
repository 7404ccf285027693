import BankedMemory.Proofs.Checkpoint.Elements
import BankedMemory.Proofs.Context.Sessions

/-!
# Global arrays hold no local composites

Each bank's arena has a history of its own client in it: `Tracks`. So what is known of the elements
of arrays in one arena holds of both: every composite a session got is a window on an array in the
bank it names, and those stored in global arrays name the global bank. `global_array_holds_no_local`
is what comes of it for a read.
-/

namespace BankedMemory

variable {config : Config} {s : Session} {h h' : Bank → History} {bank : Bank} {call : Arena.Call}
  {c : Context} {array o q : Object} {v w : View} {i : Int32} {a b : Arena} {reply : Reply}
  {f : Fault}

/-- The views name the same slots. Their banks and rights may differ. -/
structure View.SameSlots (v w : View) : Prop where
  size : w.size = v.size
  ent : w.ent = v.ent
  offset : w.offset = v.offset

namespace View.SameSlots

theorem narrow (hs : v.SameSlots w) {offset size : Int32}
    (hn : (Object.composite .array v).narrow offset size = .ok q) :
    ∃ v' w', q = .composite .array v' ∧ v'.bank = v.bank ∧ v'.SameSlots w' ∧
      (Object.composite .array w).narrow offset size = .ok (.composite .array w') := by
  unfold Object.narrow at *
  simp only at *
  rw [hs.size, hs.offset]
  split at hn
  · cases hn
  · next hfits =>
    split at hn
    · cases hn
    · next hword =>
      cases hn
      exact ⟨_, { w with offset := v.offset + offset.toUInt32, size := size.toUInt32 }, rfl, rfl,
        ⟨rfl, hs.ent, rfl⟩, by rw [if_neg hfits, if_neg hword]⟩

/-- An arena knows of a view no more than the slots. -/
theorem arrayPut_eq (hs : v.SameSlots w) (i : Int32) (o : Object) :
    Arena.arrayPut (.composite .array v) i o = Arena.arrayPut (.composite .array w) i o := by
  obtain ⟨va, vb, vsize, vent, voffset⟩ := v
  obtain ⟨wa, wb, wsize, went, woffset⟩ := w
  obtain ⟨rfl, rfl, rfl⟩ := hs
  rfl

theorem arrayGet_eq (hs : v.SameSlots w) (i : Int32) (a : Arena) :
    Arena.arrayGet (.composite .array v) i a = Arena.arrayGet (.composite .array w) i a := by
  obtain ⟨va, vb, vsize, vent, voffset⟩ := v
  obtain ⟨wa, wb, wsize, went, woffset⟩ := w
  obtain ⟨rfl, rfl, rfl⟩ := hs
  rfl

end View.SameSlots

/-- A store that comes to an arena is the call there on any view of the same slots. -/
theorem Context.run_arrayPut (hs : v.SameSlots w)
    (hrun : Context.arrayPut (.composite .array v) i o c =
      Context.onArena v.bank (Arena.arrayPut (.composite .array v) i o) c) :
    (Call.arrayPut (.composite .array v) i o).run c =
      (Call.onArena v.bank (.arrayPut (.composite .array w) i o)).run c := by
  rw [hs.arrayPut_eq] at hrun
  cases hput : Arena.arrayPut (.composite .array w) i o (c.arena v.bank) with
  | ok x b =>
    have hcall : (Arena.Call.arrayPut (.composite .array w) i o).run (c.arena v.bank) = .ok .done b :=
      EStateM.bind_of_ok hput
    exact (EStateM.bind_of_ok (hrun.trans (onArena_of_ok hput))).trans (onArena_of_ok hcall).symm
  | error f b =>
    have hcall : (Arena.Call.arrayPut (.composite .array w) i o).run (c.arena v.bank) = .error f b :=
      EStateM.bind_of_error hput
    exact (EStateM.bind_of_error (hrun.trans (onArena_of_error hput))).trans
      (onArena_of_error hcall).symm

/-- A new array in the bank of the mode is one in the history of that bank, all null. -/
theorem Account.run_newArray {terms : Terms} {g : History} {l : Ledger} {log : Nat → List Record}
    (hA : Account terms g l log) (hbank : c.arena c.mode = g.now.arena) (size : Nat) :
    (∃ v b l', (Context.Call.newArray size).run c =
        .ok (.object (.composite .array { v with bank := c.mode })) (c.withArena c.mode b) ∧
      g.step (.newArray size) = ⟨⟨b, v :: g.now.arrays, g.now.liveStacks⟩, g.past⟩ ∧
      Account terms ⟨⟨b, v :: g.now.arrays, g.now.liveStacks⟩, g.past⟩ l' log ∧
      g.now.ArraysKept b ∧ ∀ j < v.size.toNat, b.Shows v.ent j .null) ∨
    ∃ f, (Context.Call.newArray size).run c = .error f c := by
  rcases hA.newArray_spec size with ⟨v, b, l', hrun, hAb, -, -, hkept, hnull⟩ | ⟨f, hrun⟩
  · refine .inl ⟨v, b, l', ?_, History.step_newArray_of_ok hrun, hAb, hkept, hnull⟩
    rw [← hbank] at hrun
    exact EStateM.map_of_ok (Context.newArray_of_ok hrun)
  · rw [← hbank] at hrun
    have herr : (Context.Call.newArray size).run c = .error f (c.withArena c.mode (c.arena c.mode)) :=
      EStateM.map_of_error (Context.newArray_of_error hrun)
    rw [Context.withArena_arena] at herr
    exact .inr ⟨f, herr⟩

/-- If it is a composite, it is an array in the bank it names. -/
def Known (h : Bank → History) (o : Object) : Prop :=
  o.isComposite → ∃ v w, o = .composite .array v ∧ v.SameSlots w ∧
    (h v.bank).now.HasArray (.composite .array w)

/-- It may be in an array of the bank. -/
def Fits (h : Bank → History) (bank : Bank) (o : Object) : Prop :=
  Known h o ∧ (bank = .globalVM → o.isComposite → o.bank = .globalVM)

theorem Known.mono (ho : Known h o) (hmore : ∀ bank, (h bank).now.arrays ⊆ (h' bank).now.arrays) :
    Known h' o := fun hcomposite => by
  obtain ⟨v, w, heq, hs, u, hu, hwindow⟩ := ho hcomposite
  exact ⟨v, w, heq, hs, u, hmore _ hu, hwindow⟩

theorem Known.narrow {offset size : Int32} (ho : Known h o) (hn : o.narrow offset size = .ok q) :
    Known h q := by
  cases o with
  | composite shape v =>
    obtain ⟨_, w, heq, hs, u, hu, hwindow⟩ := ho rfl
    cases heq
    obtain ⟨v', w', rfl, hbank, hs', hn'⟩ := hs.narrow hn
    refine fun _ => ⟨v', w', rfl, hs', ?_⟩
    rw [hbank]
    exact ⟨u, hu, .narrow hwindow hn'⟩
  | _ => cases hn

theorem Known.restrict {access : Access} (ho : Known h o) (hr : o.restrict access = .ok q) :
    Known h q := by
  cases o with
  | composite shape v =>
    obtain ⟨_, w, heq, hs, hhas⟩ := ho rfl
    cases heq
    unfold Object.restrict at hr
    simp only at hr
    split at hr
    · cases hr
    · cases hr
      exact fun _ => ⟨_, w, rfl, ⟨hs.size, hs.ent, hs.offset⟩, hhas⟩
  | _ => cases hr

/-- `h bank` is what happened so far in the bank, and everything in its arrays may be there. -/
structure Session.TracksBank (s : Session) (h : Bank → History) (bank : Bank) : Prop where
  account : ∃ l log, Account (.plain False) (h bank) l log
  arena : s.context.arena bank = (h bank).now.arena
  liveStacks : s.liveStacks bank = (h bank).now.liveStacks
  elements : (h bank).Holds (Fits h bank)

/-- So it is in both banks, and all that the client got is known. -/
structure Session.Tracks (s : Session) (h : Bank → History) : Prop where
  inBank : ∀ bank, s.TracksBank h bank
  strict : s.context.permissive = false
  values : ∀ o ∈ s.values, Known h o

namespace History

/-- What happened in each bank, with one more call in one of them. -/
def inBank (h : Bank → History) (bank : Bank) (call : Arena.Call) : Bank → History :=
  Function.update h bank ((h bank).step call)

@[simp] theorem inBank_self : inBank h bank call bank = (h bank).step call :=
  Function.update_self ..

theorem inBank_ne {other : Bank} (hne : other ≠ bank) : inBank h bank call other = h other :=
  Function.update_of_ne hne _ _

theorem arrays_subset_inBank (other : Bank) :
    (h other).now.arrays ⊆ (inBank h bank call other).now.arrays := by
  rcases eq_or_ne other bank with rfl | hne
  · rw [inBank_self]
    exact arrays_subset_step
  · rw [inBank_ne hne]
    exact List.Subset.refl _

end History

namespace Session

/-- The session after a call in one bank, with these values. -/
def acted (s : Session) (h : Bank → History) (bank : Bank) (call : Arena.Call)
    (values : List Object) : Session where
  context := s.context.withArena bank ((h bank).step call).now.arena
  values := values
  liveStacks := Function.update s.liveStacks bank ((h bank).step call).now.liveStacks

theorem acted_liveStacks_self {values : List Object} :
    (s.acted h bank call values).liveStacks bank = ((h bank).step call).now.liveStacks :=
  Function.update_self ..

theorem acted_liveStacks_ne {values : List Object} {other : Bank} (hne : other ≠ bank) :
    (s.acted h bank call values).liveStacks other = s.liveStacks other :=
  Function.update_of_ne hne _ _

variable {ctxCall : Context.Call}

theorem step_of_ok (hrun : ctxCall.run s.context = .ok reply c) :
    s.step ctxCall = s.settle c ctxCall reply := by
  unfold step; rw [hrun]

theorem step_of_error (hrun : ctxCall.run s.context = .error f c) :
    s.step ctxCall = ⟨s.context.afterFault f c, s.values, s.liveStacks⟩ := by
  unfold step; rw [hrun]

namespace Tracks

theorem known_inBank (ht : s.Tracks h) : ∀ o ∈ s.values, Known (History.inBank h bank call) o :=
  fun o ho => (ht.values o ho).mono History.arrays_subset_inBank

/-- One call in one bank. -/
theorem act (ht : s.Tracks h) (may : call.May False (h bank))
    (hput : ∀ array i o, call = .arrayPut array i o → Fits h bank o) {values : List Object}
    (hvalues : ∀ o ∈ values, Known (History.inBank h bank call) o) :
    (s.acted h bank call values).Tracks (History.inBank h bank call) := by
  have hmore : ∀ other o, Fits h other o → Fits (History.inBank h bank call) other o :=
    fun other o ho => ⟨ho.1.mono History.arrays_subset_inBank, ho.2⟩
  have hnull : Fits h bank .null := ⟨(fun hnot => nomatch hnot), fun _ hnot => nomatch hnot⟩
  obtain ⟨⟨l, log, hA⟩, -, -, helements⟩ := ht.inBank bank
  refine ⟨fun other => ?_, Context.permissive_withArena.trans ht.strict, hvalues⟩
  rcases eq_or_ne other bank with rfl | hne
  · obtain ⟨l', log', hkept⟩ := hA.step rfl may
    have hholds := hA.holds_step hnull may hput helements
    rw [← History.inBank_self (h := h)] at hholds
    refine ⟨⟨l', log', ?_⟩, ?_, ?_, hholds.mono (hmore other)⟩
    · rw [History.inBank_self]
      exact hkept.account
    · rw [History.inBank_self]
      exact Context.arena_withArena_self
    · rw [History.inBank_self]
      exact acted_liveStacks_self
  · obtain ⟨haccount, harena, hstacks, hholds⟩ := ht.inBank other
    rw [← History.inBank_ne (h := h) hne] at haccount harena hstacks hholds
    exact ⟨haccount, (Context.arena_withArena_ne hne).trans harena,
      (acted_liveStacks_ne hne).trans hstacks, hholds.mono (hmore other)⟩

/-- A call that leaves both arenas, and brings values that are known. -/
theorem look (ht : s.Tracks h) (harena : ∀ bank, c.arena bank = s.context.arena bank)
    (hstrict : c.permissive = false) {values : List Object} (hvalues : ∀ o ∈ values, Known h o) :
    Session.Tracks ⟨c, values, s.liveStacks⟩ h :=
  ⟨fun bank =>
    let ⟨haccount, hbank, hstacks, helements⟩ := ht.inBank bank
    ⟨haccount, (harena bank).trans hbank, hstacks, helements⟩, hstrict, hvalues⟩

/-- A call that is refused before it comes to an arena. -/
theorem refused (ht : s.Tracks h) (hrun : ctxCall.run s.context = .error f s.context) :
    (s.step ctxCall).Tracks h := by
  rw [step_of_error hrun, Context.afterFault_self]
  exact ht

theorem settle_onArena (ht : s.Tracks h) (b : Arena) : s.settle c (.onArena bank call) reply =
    ⟨c, s.values, Function.update s.liveStacks bank ((h bank).now.settle call reply b).liveStacks⟩ := by
  have hself : Function.update s.liveStacks bank (h bank).now.liveStacks = s.liveStacks := by
    rw [← (ht.inBank bank).liveStacks, Function.update_eq_self]
  by_cases hcall : call = .newStack ∨ ∃ p, call = .freeStack p
  · rcases hcall with rfl | ⟨p, rfl⟩
    · cases reply with
      | handle k =>
        simp only [settle, Client.settle]
        rw [(ht.inBank bank).liveStacks]
      | _ => simp only [settle, Client.settle, hself]
    · simp only [settle, Client.settle]
      rw [(ht.inBank bank).liveStacks]
  · rw [not_or, not_exists] at hcall
    rw [Client.liveStacks_settle hcall.1 hcall.2, hself]
    unfold settle
    split
    · next heq => cases heq
    · next heq => cases heq
    · next heq =>
      cases heq
      exact absurd rfl hcall.1
    · next heq =>
      cases heq
      exact absurd rfl (hcall.2 _)
    · rfl

theorem step_onArena (ht : s.Tracks h) :
    s.step (.onArena bank call) = s.acted h bank call s.values := by
  rcases Context.run_onArena (ht.inBank bank).arena call with
    ⟨reply, b, hrun, hok⟩ | ⟨f, b, d, hrun, herr, hafter⟩
  · rw [step_of_ok hok, ht.settle_onArena b]
    unfold acted
    rw [History.now_step_of_ok hrun]
  · have hstacks : ((h bank).step call).now.liveStacks = (h bank).now.liveStacks :=
      History.liveStacks_step_of_error hrun
    rw [step_of_error herr, hafter]
    unfold acted
    rw [hstacks, ← (ht.inBank bank).liveStacks, Function.update_eq_self]

/-- A call in one bank that a context passes on. -/
theorem call_onArena (ht : s.Tracks h) (may : (Context.Call.onArena bank call).May s) :
    (s.step (.onArena bank call)).Tracks (History.inBank h bank call) := by
  rw [ht.step_onArena]
  have hstack : ∀ p, p ∈ s.liveStacks bank → p ∈ (h bank).now.liveStacks := fun p hp =>
    (ht.inBank bank).liveStacks ▸ hp
  refine ht.act ?_ ?_ ht.known_inBank
  · cases call with
    | save | restore | newStack | depth | usage => trivial
    | push p _ | pop p | count p | isEmpty p | bottom p _ | top p _ | setBottom p _ _
    | setTop p _ _ | freeStack p | listing p => exact hstack p may
    | _ => exact may.elim
  · rintro array i o rfl
    exact may.elim

/-- A call that leaves the stacks of its bank leaves those of the session. -/
theorem acted_eq (ht : s.Tracks h) (hnow : ((h bank).step call).now.arena = b)
    (hstacks : ((h bank).step call).now.liveStacks = (h bank).now.liveStacks) {values : List Object} :
    s.acted h bank call values = ⟨s.context.withArena bank b, values, s.liveStacks⟩ := by
  unfold acted
  rw [hnow, hstacks, ← (ht.inBank bank).liveStacks, Function.update_eq_self]

theorem call_newArray (ht : s.Tracks h) (size : Nat) : ∃ h', (s.step (.newArray size)).Tracks h' := by
  obtain ⟨l, log, hA⟩ := (ht.inBank s.context.mode).account
  rcases hA.run_newArray (ht.inBank s.context.mode).arena size with
    ⟨v, b, l', hok, hstep, -, -, -⟩ | ⟨f, herr⟩
  · have hact : s.acted h s.context.mode (.newArray size)
        (.composite .array { v with bank := s.context.mode } :: s.values) = _ :=
      ht.acted_eq (b := b) (by rw [hstep]) (by rw [hstep])
    rw [step_of_ok hok]
    refine ⟨History.inBank h s.context.mode (.newArray size), ?_⟩
    unfold settle
    simp only
    rw [← hact]
    have may : (Arena.Call.newArray size).May False (h s.context.mode) := trivial
    refine ht.act may (fun _ _ _ heq => by cases heq) fun o ho => ?_
    rcases List.mem_cons.mp ho with rfl | ho
    · refine fun _ => ⟨_, v, rfl, ⟨rfl, rfl, rfl⟩, ?_⟩
      simp only
      rw [History.inBank_self, hstep]
      exact ⟨v, List.mem_cons_self, .self⟩
    · exact ht.known_inBank o ho
  · exact ⟨h, ht.refused herr⟩

theorem call_arrayPut (ht : s.Tracks h) (harray : array ∈ s.values)
    (ho : o.isComposite → o ∈ s.values) (i : Int32) :
    ∃ h', (s.step (.arrayPut array i o)).Tracks h' := by
  rcases Context.arrayPut_cases array i o s.context with ⟨f, hrun⟩ | ⟨v, rfl, hglobal, hrun⟩
  · exact ⟨h, ht.refused (EStateM.bind_of_error hrun)⟩
  · obtain ⟨_, w, heq, hs, hhas⟩ := ht.values _ harray rfl
    cases heq
    have hfits : Fits h v.bank o := ⟨fun hcomposite => ht.values o (ho hcomposite) hcomposite,
      hglobal ht.strict⟩
    have hsame : s.step (.arrayPut (.composite .array v) i o) =
        s.step (.onArena v.bank (.arrayPut (.composite .array w) i o)) := by
      unfold step
      rw [Context.run_arrayPut hs hrun]
      split <;> rfl
    rw [hsame, ht.step_onArena]
    have may : (Arena.Call.arrayPut (.composite .array w) i o).May False (h v.bank) := hhas
    refine ⟨_, ht.act may ?_ ht.known_inBank⟩
    rintro _ _ _ heq
    cases heq
    exact hfits

/-- An element read is known, and in the global bank if it is read there. -/
theorem fits_arrayGet (ht : s.Tracks h) (harray : array ∈ s.values)
    (hget : Context.arrayGet array i s.context = .ok o) : Fits h array.bank o := by
  obtain ⟨v, rfl, hread⟩ := Context.arrayGet_of_ok hget
  obtain ⟨_, w, heq, hs, hhas⟩ := ht.values _ harray rfl
  cases heq
  obtain ⟨l, log, hA⟩ := (ht.inBank v.bank).account
  rw [hs.arrayGet_eq, (ht.inBank v.bank).arena] at hread
  exact hA.holds_arrayGet ((ht.inBank v.bank).elements _ List.mem_cons_self) hhas hread

theorem call_arrayGet (ht : s.Tracks h) (harray : array ∈ s.values) (i : Int32) :
    (s.step (.arrayGet array i)).Tracks h := by
  cases hget : Context.arrayGet array i s.context with
  | error f =>
    refine ht.refused (f := f) ?_
    simp only [Context.Call.run, Context.reading, bind_eq_of_error hget]
  | ok o =>
    have hok : (Context.Call.arrayGet array i).run s.context = .ok (.object o) s.context := by
      simp only [Context.Call.run, Context.reading, bind_eq_of_ok hget]
      rfl
    rw [step_of_ok hok]
    refine ht.look (fun _ => rfl) ht.strict fun p hp => ?_
    rcases List.mem_cons.mp hp with rfl | hp
    · exact (ht.fits_arrayGet harray hget).1
    · exact ht.values p hp

/-- Asking does not change the context. -/
theorem call_reading (ht : s.Tracks h) {look : Context → Except Fault Reply}
    (hrun : ctxCall.run = Context.reading look)
    (hsettle : ∀ reply, s.settle s.context ctxCall reply = s) : (s.step ctxCall).Tracks h := by
  rcases Context.reading_cases look s.context with ⟨f, hfail⟩ | ⟨reply, hok⟩
  · exact ht.refused (hrun ▸ hfail)
  · rw [step_of_ok (hrun ▸ hok), hsettle]
    exact ht

theorem step (ht : s.Tracks h) (may : ctxCall.May s) : ∃ h', (s.step ctxCall).Tracks h' := by
  cases ctxCall with
  | onArena bank call => exact ⟨_, ht.call_onArena may⟩
  | setMode mode =>
    exact ⟨h, ht.look (c := { s.context with mode }) (fun bank => by cases bank <;> rfl) ht.strict
      ht.values⟩
  | setPermissive permissive =>
    exact ⟨h, ht.look (c := { s.context with permissive }) (fun bank => by cases bank <;> rfl) may
      ht.values⟩
  | newUnbankedArray size => exact may.elim
  | newArray size => exact ht.call_newArray size
  | arrayPut array i o => exact ht.call_arrayPut may.1 may.2 i
  | arrayGet array i => exact ⟨h, ht.call_arrayGet may i⟩
  | bankUsage o => exact ⟨h, ht.call_reading (by unfold Context.Call.run; rfl) fun _ => rfl⟩
  | accept dest item permissive op =>
    exact ⟨h, ht.call_reading (by unfold Context.Call.run; rfl) fun _ => rfl⟩

end Tracks

theorem tracks_start (hstrict : config.permissive = false) :
    (start config).Tracks fun
      | .localVM => .start config.localLimit
      | .globalVM => .start config.globalLimit where
  inBank bank := by
    cases bank <;> exact ⟨⟨_, _, account_start rfl _⟩, rfl, rfl, History.holds_start _⟩
  strict := hstrict
  values o ho := absurd ho List.not_mem_nil

theorem Run.tracks (hr : s.Run config) (hstrict : config.permissive = false) : ∃ h, s.Tracks h := by
  induction hr with
  | start => exact ⟨_, tracks_start hstrict⟩
  | call _ may ih =>
    obtain ⟨h, ht⟩ := ih
    exact ht.step may
  | narrow _ got narrowed ih =>
    obtain ⟨h, ht⟩ := ih
    exact ⟨h, ht.look (fun _ => rfl) ht.strict
      (List.forall_mem_cons.mpr ⟨(ht.values _ got).narrow narrowed, ht.values⟩)⟩
  | restrict _ got restricted ih =>
    obtain ⟨h, ht⟩ := ih
    exact ⟨h, ht.look (fun _ => rfl) ht.strict
      (List.forall_mem_cons.mpr ⟨(ht.values _ got).restrict restricted, ht.values⟩)⟩

end Session

/-- What is read from a global array is no composite of the local bank. -/
theorem global_array_holds_no_local (hr : s.Run config) (hstrict : config.permissive = false)
    (harray : array ∈ s.values) (hbank : array.bank = .globalVM)
    (hget : Context.arrayGet array i s.context = .ok o) : o.isComposite → o.bank = .globalVM := by
  obtain ⟨h, ht⟩ := hr.tracks hstrict
  exact (ht.fits_arrayGet harray hget).2 hbank

/-- An array is made in each bank. The local one is not let into the global one, which then takes
itself. -/
theorem global_array_holds_no_local_self :
    let array : Object := .composite .array { size := 1, ent := 1, bank := .globalVM }
    let other : Object := .composite .array { size := 1, ent := 1 }
    let made := ((Session.start {}).step (.newArray 1)).step (.setMode .globalVM)
    let stored := ((made.step (.newArray 1)).step (.arrayPut array 0 other)).step
      (.arrayPut array 0 array)
    stored.Run {} ∧ Context.arrayGet array 0 stored.context = .ok array ∧
      (array.isComposite → array.bank = .globalVM) := by
  intro array other made stored
  have hvalues : (made.step (.newArray 1)).values = [array, other] := by decide +kernel
  have hmade : (made.step (.newArray 1)).Run {} :=
    .call (.call (.call .start trivial) trivial) trivial
  have hrefused : ((made.step (.newArray 1)).step (.arrayPut array 0 other)).Run {} :=
    .call hmade ⟨by simp [hvalues], fun _ => by simp [hvalues]⟩
  have hkept : ((made.step (.newArray 1)).step (.arrayPut array 0 other)).values = [array, other] := by
    decide +kernel
  have hrun : stored.Run {} := .call hrefused ⟨by simp [hkept], fun _ => by simp [hkept]⟩
  have hget : Context.arrayGet array 0 stored.context = .ok array := by decide +kernel
  have harray : array ∈ stored.values := by decide +kernel
  exact ⟨hrun, hget, global_array_holds_no_local hrun rfl harray rfl hget⟩

end BankedMemory
