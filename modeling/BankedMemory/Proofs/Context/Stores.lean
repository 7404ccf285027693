import BankedMemory.Proofs.Context.Banks
import BankedMemory.Proofs.Context.Journals

/-!
# Banked arrays are one store

Each bank's arena has a history of its own client in it, and the notes of a journal say what the
arrays of both show. So an array at hand, whatever it was taken out of, gives what was stored last
in the slot, through whichever array, in whatever order all this happened: `read_latest_stored`. A
restore of the array's bank is the one thing that takes this away.
-/

namespace BankedMemory

variable {config : Config} {s : Journal} {h : Bank → History} {bank : Bank} {call : Arena.Call}
  {ctxCall : Context.Call} {cx : Context} {array o : Object} {v : View} {i : Int32} {b : Arena}
  {reply : Reply} {f : Fault}

/-- What a store that succeeded did to the arrays of its bank. -/
theorem Account.stored_of_ok {terms : Terms} {g : History} {l : Ledger} {log : Nat → List Record}
    (hA : Account terms g l log) (hhas : g.now.HasArray (.composite .array v))
    (hrun : (Arena.Call.arrayPut (.composite .array v) i o).run g.now.arena = .ok reply b) :
    g.now.Stored v.ent (v.offset.toNat + i.toUInt32.toNat) o b := by
  rcases hA.arrayPut_spec hhas i o with
    ⟨b', l', log', hput, ⟨w, heq, -, hstored, -⟩, -⟩ | ⟨f, b', hput, -⟩
  · cases heq
    have hok : (Arena.Call.arrayPut (.composite .array v) i o).run g.now.arena = .ok .done b' :=
      EStateM.bind_of_ok hput
    rw [hrun] at hok
    cases hok
    exact hstored
  · have herr : (Arena.Call.arrayPut (.composite .array v) i o).run g.now.arena = .error f b' :=
      EStateM.bind_of_error hput
    rw [hrun] at herr
    cases herr

namespace Journal

/-- `h bank` is what happened so far in the bank, and the notes say what its arrays show. -/
structure TracksBank (s : Journal) (h : Bank → History) (bank : Bank) : Prop where
  account : ∃ l log, Account (.plain False) (h bank) l log
  arena : s.context.arena bank = (h bank).now.arena
  told : Told s.notes bank (h bank).now

structure Tracks (s : Journal) (h : Bank → History) : Prop where
  inBank : ∀ bank, s.TracksBank h bank
  arrays : ∀ o ∈ s.arrays, Known h o

theorem step_of_ok (hrun : ctxCall.run s.context = .ok reply cx) :
    s.step ctxCall = s.enter cx ctxCall reply := by
  unfold step; rw [hrun]

theorem step_of_error (hrun : ctxCall.run s.context = .error f cx) :
    s.step ctxCall = ⟨s.context.afterFault f cx, s.arrays, s.notes⟩ := by
  unfold step; rw [hrun]

theorem step_save : (s.step (.onArena bank .save)).arrays = s.arrays ∧
    (s.step (.onArena bank .save)).notes = s.notes := by
  unfold step
  split <;> exact ⟨rfl, rfl⟩

namespace Tracks

theorem known_inBank (ht : s.Tracks h) :
    ∀ o ∈ s.arrays, Known (History.inBank h bank call) o := fun o ho =>
  (ht.arrays o ho).mono History.arrays_subset_inBank

/-- One call in one bank. What is noted of it is of no matter to the other one. -/
theorem act (ht : s.Tracks h) (may : call.May False (h bank)) (arrays : List Object)
    (notes : List Note)
    (hother : ∀ other c, other ≠ bank → Told s.notes other c → Told notes other c)
    (hself : ∀ l log l' log', Account (.plain False) (h bank) l log →
      Kept (.plain False) (h bank) l call l' log' → Told notes bank ((h bank).step call).now)
    (harrays : ∀ o ∈ arrays, Known (History.inBank h bank call) o) :
    Tracks ⟨s.context.withArena bank ((h bank).step call).now.arena, arrays, notes⟩
      (History.inBank h bank call) := by
  refine ⟨fun other => ?_, harrays⟩
  rcases eq_or_ne other bank with rfl | hne
  · obtain ⟨⟨l, log, hA⟩, -, -⟩ := ht.inBank other
    obtain ⟨l', log', hkept⟩ := hA.step rfl may
    refine ⟨⟨l', log', ?_⟩, ?_, ?_⟩
    · rw [History.inBank_self]
      exact hkept.account
    · rw [History.inBank_self]
      exact Context.arena_withArena_self
    · rw [History.inBank_self]
      exact hself l log l' log' hA hkept
  · obtain ⟨haccount, harena, htold⟩ := ht.inBank other
    rw [← History.inBank_ne (h := h) hne] at haccount harena htold
    exact ⟨haccount, (Context.arena_withArena_ne hne).trans harena, hother other _ hne htold⟩

/-- A call that leaves the arrays of its bank, and brings none, is not noted. -/
theorem unnoted (ht : s.Tracks h) (may : call.May False (h bank))
    (hnew : ∀ size, call ≠ .newArray size)
    (hkeep : ∀ l log l' log', Account (.plain False) (h bank) l log →
      Kept (.plain False) (h bank) l call l' log' →
      (h bank).now.ArraysKept ((h bank).step call).now.arena) :
    Tracks ⟨s.context.withArena bank ((h bank).step call).now.arena, s.arrays, s.notes⟩
      (History.inBank h bank call) :=
  ht.act may s.arrays s.notes (fun _ _ _ => id) (fun l log l' log' hA hkept =>
    (ht.inBank bank).told.kept (History.arrays_step hnew) (hkeep l log l' log' hA hkept))
    ht.known_inBank

theorem failed (ht : s.Tracks h) (may : call.May False (h bank))
    (hnew : ∀ size, call ≠ .newArray size) (hrun : call.run (h bank).now.arena = .error f b) :
    Tracks ⟨s.context.withArena bank ((h bank).step call).now.arena, s.arrays, s.notes⟩
      (History.inBank h bank call) :=
  ht.unnoted may hnew fun _ _ _ _ hA hkept => by
    by_cases hstop : f.stops
    · rw [History.step_of_stop hrun hstop]
      exact .refl _
    · rw [History.step_of_error hrun hstop]
      exact hA.arraysKept_of_harmless (hkept.failed f b hrun hstop)

/-- A call that leaves both arenas. -/
theorem look (ht : s.Tracks h) (cx : Context) (harena : ∀ bank, cx.arena bank = s.context.arena bank)
    {arrays : List Object} (harrays : ∀ o ∈ arrays, Known h o) :
    Tracks ⟨cx, arrays, s.notes⟩ h :=
  ⟨fun bank =>
    let ⟨haccount, hbank, htold⟩ := ht.inBank bank
    ⟨haccount, (harena bank).trans hbank, htold⟩, harrays⟩

/-- A call that is refused before it comes to an arena. -/
theorem refused (ht : s.Tracks h) (hrun : ctxCall.run s.context = .error f s.context) :
    (s.step ctxCall).Tracks h := by
  rw [step_of_error hrun, Context.afterFault_self]
  exact ht

/-- Of the calls that a context passes on to a bank, only a restore that succeeds changes arrays. -/
theorem call_onArena (ht : s.Tracks h) (allowed : s.Allows (.onArena bank call)) :
    (s.step (.onArena bank call)).Tracks (History.inBank h bank call) := by
  have may : call.May False (h bank) := by
    cases call with
    | save | restore | depth | usage => trivial
    | _ => exact allowed.elim
  have hnew : ∀ size, call ≠ .newArray size := by
    rintro size rfl
    exact allowed
  rcases Context.run_onArena (ht.inBank bank).arena call with
    ⟨reply, b, hrun, hok⟩ | ⟨f, b, d, hrun, herr, hafter⟩
  · rw [step_of_ok hok]
    cases call with
    | restore =>
      exact ht.act may s.arrays (.restored bank :: s.notes)
        (fun _ _ hne htold => htold.cons_ne (Ne.symm hne)) (fun _ _ _ _ _ _ => .restored)
        ht.known_inBank
    | save | depth | usage => exact ht.unnoted may hnew fun _ _ _ _ _ hkept => hkept.arrays id
    | _ => exact allowed.elim
  · rw [step_of_error herr, hafter]
    exact ht.failed may hnew hrun

theorem call_newArray (ht : s.Tracks h) (size : Nat) : ∃ h', (s.step (.newArray size)).Tracks h' := by
  obtain ⟨l, log, hA⟩ := (ht.inBank s.context.mode).account
  rcases hA.run_newArray (ht.inBank s.context.mode).arena size with
    ⟨v, b, l', hok, hstep, hAb, hkept, hnull⟩ | ⟨f, herr⟩
  · have may : (Arena.Call.newArray size).May False (h s.context.mode) := trivial
    have hact := ht.act may (.composite .array { v with bank := s.context.mode } :: s.arrays)
      (.made s.context.mode v.ent :: s.notes) (fun _ _ hne htold => htold.cons_ne (Ne.symm hne))
      (fun _ _ _ _ _ _ => ?_) fun o ho => ?_
    · rw [hstep] at hact
      rw [step_of_ok hok]
      exact ⟨_, hact⟩
    · rw [hstep]
      exact (ht.inBank _).told.made rfl hkept hnull fun w hw hsize => hAb.fresh hw hsize
    · rcases List.mem_cons.mp ho with rfl | ho
      · refine fun _ => ⟨_, v, rfl, ⟨rfl, rfl, rfl⟩, ?_⟩
        simp only
        rw [History.inBank_self, hstep]
        exact ⟨v, List.mem_cons_self, .self⟩
      · exact ht.known_inBank o ho
  · exact ⟨h, ht.refused herr⟩

theorem call_arrayPut (ht : s.Tracks h) (harray : array ∈ s.arrays) (i : Int32) (o : Object) :
    ∃ h', (s.step (.arrayPut array i o)).Tracks h' := by
  rcases Context.arrayPut_cases array i o s.context with ⟨f, hrun⟩ | ⟨v, rfl, -, hrun⟩
  · exact ⟨h, ht.refused (EStateM.bind_of_error hrun)⟩
  · obtain ⟨_, w, heq, hs, hhas⟩ := ht.arrays _ harray rfl
    cases heq
    have may : (Arena.Call.arrayPut (.composite .array w) i o).May False (h v.bank) := hhas
    have hcall := Context.run_arrayPut hs hrun
    refine ⟨History.inBank h v.bank (.arrayPut (.composite .array w) i o), ?_⟩
    rcases Context.run_onArena (ht.inBank v.bank).arena (.arrayPut (.composite .array w) i o) with
      ⟨reply, b, hput, hok⟩ | ⟨f, b, d, hput, herr, hafter⟩
    · rw [step_of_ok (hcall.trans hok)]
      refine ht.act may s.arrays (.stored v.bank v.ent (v.offset.toNat + i.toUInt32.toNat) o :: s.notes)
        (fun _ _ hne htold => htold.cons_ne (Ne.symm hne)) (fun l log _ _ hA _ => ?_) ht.known_inBank
      have hstored := hA.stored_of_ok hhas hput
      rw [hs.ent, hs.offset] at hstored
      refine (ht.inBank v.bank).told.stored (History.arrays_step (by simp)) ?_
      rw [History.now_step_of_ok hput, Client.arena_settle]
      exact hstored
    · rw [step_of_error (hcall.trans herr), hafter]
      exact ht.failed may (by simp) hput

/-- Asking does not change the context. -/
theorem call_reading (ht : s.Tracks h) {look : Context → Except Fault Reply}
    (hrun : ctxCall.run = Context.reading look)
    (henter : ∀ reply, s.enter s.context ctxCall reply = s) : (s.step ctxCall).Tracks h := by
  rcases Context.reading_cases look s.context with ⟨f, hfail⟩ | ⟨reply, hok⟩
  · exact ht.refused (hrun ▸ hfail)
  · rw [step_of_ok (hrun ▸ hok), henter]
    exact ht

theorem step (ht : s.Tracks h) (allowed : s.Allows ctxCall) : ∃ h', (s.step ctxCall).Tracks h' := by
  cases ctxCall with
  | onArena bank call => exact ⟨_, ht.call_onArena allowed⟩
  | setMode mode =>
    exact ⟨h, ht.look { s.context with mode } (fun bank => by cases bank <;> rfl) ht.arrays⟩
  | setPermissive permissive =>
    exact ⟨h, ht.look { s.context with permissive } (fun bank => by cases bank <;> rfl)
      ht.arrays⟩
  | newUnbankedArray size => exact allowed.elim
  | newArray size => exact ht.call_newArray size
  | arrayPut array i o => exact ht.call_arrayPut allowed i o
  | arrayGet array i =>
    exact ⟨h, ht.call_reading (by unfold Context.Call.run; rfl) fun _ => rfl⟩
  | bankUsage o => exact ⟨h, ht.call_reading (by unfold Context.Call.run; rfl) fun _ => rfl⟩
  | accept dest item permissive op =>
    exact ⟨h, ht.call_reading (by unfold Context.Call.run; rfl) fun _ => rfl⟩

/-- A readable array gives an element for each index, the one noted last while that can be told. -/
theorem arrayGet_eq (ht : s.Tracks h) (hv : .composite .array v ∈ s.arrays)
    (hread : v.access.readable = true) (hi : v.InRange i) :
    ∃ o, Context.arrayGet (.composite .array v) i s.context = .ok o ∧
      (Unrestored v.bank v.ent s.notes →
        o = latest v.bank v.ent (v.offset.toNat + i.toUInt32.toNat) s.notes) := by
  obtain ⟨_, w, heq, hs, u, hu, hwindow⟩ := ht.arrays _ hv rfl
  cases heq
  obtain ⟨⟨l, log, hA⟩, hbank, htold⟩ := ht.inBank v.bank
  have hsound := hA.describes.sound
  obtain ⟨_, heq, hent, hslots⟩ := hA.window hu hwindow
  cases heq
  have hi' : w.InRange i := ⟨hi.1, hs.size ▸ hi.2⟩
  have hlt := hslots i hi'
  have hget : Context.arrayGet (.composite .array v) i s.context =
      (h v.bank).now.arena.readSlot u.ent (w.offset.toNat + i.toUInt32.toNat) := by
    have hview : (Object.composite .array v).array? "bank_array_get" = .ok v := rfl
    unfold Context.arrayGet
    rw [bind_eq_of_ok hview]
    simp only
    rw [hread, hbank, hs.arrayGet_eq, ← hent, ← Arena.arrayGet_eq hi']
    rfl
  obtain ⟨o, hshow⟩ := hA.readable (h v.bank).past.length hA.base_le (Nat.le_refl _) u hu _ hlt
  rw [since_eq_nil (Nat.le_refl _), origin_nil] at hshow
  refine ⟨o, hget.trans (hshow.readSlot hsound), fun hnot => ?_⟩
  rw [← hs.ent, hent] at hnot ⊢
  have hlatest := htold u hu _ hlt hnot
  rw [hs.offset] at hshow hlatest
  exact Except.ok.inj ((hshow.readSlot hsound).symm.trans (hlatest.readSlot hsound))

end Tracks

theorem tracks_start (config : Config) :
    (start config).Tracks fun
      | .localVM => .start config.localLimit
      | .globalVM => .start config.globalLimit where
  inBank bank := by
    cases bank <;> exact ⟨⟨_, _, account_start rfl _⟩, rfl, fun v hv => absurd hv List.not_mem_nil⟩
  arrays o ho := absurd ho List.not_mem_nil

theorem Run.tracks (hr : s.Run config) : ∃ h, s.Tracks h := by
  induction hr with
  | start => exact ⟨_, tracks_start config⟩
  | call _ allowed ih =>
    obtain ⟨h, ht⟩ := ih
    exact ht.step allowed
  | narrow _ got narrowed ih =>
    obtain ⟨h, ht⟩ := ih
    exact ⟨h, ht.look _ (fun _ => rfl)
      (List.forall_mem_cons.mpr ⟨(ht.arrays _ got).narrow narrowed, ht.arrays⟩)⟩
  | restrict _ got restricted ih =>
    obtain ⟨h, ht⟩ := ih
    exact ⟨h, ht.look _ (fun _ => rfl)
      (List.forall_mem_cons.mpr ⟨(ht.arrays _ got).restrict restricted, ht.arrays⟩)⟩

end Journal

namespace Context

/-- The outcome with another mode. -/
def inMode {α : Type} (mode : Bank) :
    EStateM.Result Fault Context α → EStateM.Result Fault Context α
  | .ok x c => .ok x { c with mode }
  | .error f c => .error f { c with mode }

theorem onArena_inMode {α : Type} (mode : Bank) (act : ArenaM α) (c : Context) :
    onArena bank act { c with mode } = inMode mode (onArena bank act c) := by
  obtain ⟨lo, gl, mode', permissive⟩ := c
  cases bank with
  | localVM =>
    unfold onArena
    simp only
    cases act lo <;> rfl
  | globalVM =>
    unfold onArena
    simp only
    cases act gl <;> rfl

/-- An array is read in the bank it names, whatever the mode. -/
theorem arrayGet_inMode (mode : Bank) (array : Object) (i : Int32) (c : Context) :
    arrayGet array i { c with mode } = arrayGet array i c := by
  have harena : ∀ bank, ({ c with mode } : Context).arena bank = c.arena bank := fun bank => by
    cases bank <;> rfl
  unfold arrayGet
  simp only [harena]

/-- The checks of a store do not look at the mode, nor does the store. -/
theorem arrayPut_inMode (mode : Bank) (array : Object) (i : Int32) (o : Object) (c : Context) :
    arrayPut array i o { c with mode } = inMode mode (arrayPut array i o c) := by
  unfold arrayPut
  cases hview : array.array? "bank_array_put" with
  | error f => rfl
  | ok v =>
    have hv : ∀ c, reading (fun _ => (Except.ok v : Except Fault View)) c = .ok v c := fun _ => rfl
    rw [EStateM.bind_of_ok (hv _), EStateM.bind_of_ok (hv _)]
    simp only
    split
    · rfl
    · cases haccept : v.bank.accept o c.permissive "bank_array_put" with
      | error f =>
        have hrefused : ∀ c', c'.permissive = c.permissive →
            reading (fun c => v.bank.accept o c.permissive "bank_array_put") c' = .error f c' :=
          fun c' hsame => reading_of_error (by rw [hsame, haccept])
        rw [EStateM.bind_of_error (hrefused { c with mode } rfl),
          EStateM.bind_of_error (hrefused c rfl)]
        rfl
      | ok x =>
        have htaken : ∀ c', c'.permissive = c.permissive →
            reading (fun c => v.bank.accept o c.permissive "bank_array_put") c' = .ok x c' :=
          fun c' hsame => reading_of_ok (by rw [hsame, haccept])
        rw [EStateM.bind_of_ok (htaken { c with mode } rfl), EStateM.bind_of_ok (htaken c rfl)]
        exact onArena_inMode mode _ c

/-- An array that may not be read is refused, and so is an index that is none of the array's. -/
theorem inRange_of_arrayGet (hget : arrayGet (.composite .array v) i cx = .ok o) :
    v.access.readable = true ∧ v.InRange i := by
  obtain ⟨_, hview, hget⟩ := exists_of_bind_ok hget
  cases hview
  split at hget
  · cases hget
  · next hread =>
    refine ⟨by simpa using hread, ?_⟩
    by_contra hi
    cases (Arena.arrayGet_error hi).symm.trans hget

end Context

/-- Whatever was done in whatever order, an array at hand gives an element just when it may be read
and has the index, and gives the object stored last in the slot that this index names, through this
array or another, unless the bank was restored since the array was made. The mode is of no matter to
where arrays are read and written. -/
theorem read_latest_stored (hr : s.Run config) (hv : .composite .array v ∈ s.arrays) (i : Int32) :
    ((∃ o, Context.arrayGet (.composite .array v) i s.context = .ok o) ↔
      v.access.readable = true ∧ v.InRange i) ∧
    (v.access.readable = true → v.InRange i → Journal.Unrestored v.bank v.ent s.notes →
      Context.arrayGet (.composite .array v) i s.context = .ok (Journal.latest v.bank v.ent
        (v.offset.toNat + i.toUInt32.toNat) s.notes)) ∧
    ∀ mode,
      Context.arrayGet (.composite .array v) i { s.context with mode } =
        Context.arrayGet (.composite .array v) i s.context ∧
      ∀ o, Context.arrayPut (.composite .array v) i o { s.context with mode } =
        Context.inMode mode (Context.arrayPut (.composite .array v) i o s.context) := by
  obtain ⟨h, ht⟩ := hr.tracks
  refine ⟨⟨fun ⟨o, hget⟩ => Context.inRange_of_arrayGet hget, fun ⟨hread, hi⟩ => ?_⟩,
    fun hread hi hnot => ?_, fun mode => ⟨Context.arrayGet_inMode mode _ i _, fun o =>
      Context.arrayPut_inMode mode _ i o _⟩⟩
  · obtain ⟨o, hget, -⟩ := ht.arrayGet_eq hv hread hi
    exact ⟨o, hget⟩
  · obtain ⟨o, hget, hlatest⟩ := ht.arrayGet_eq hv hread hi
    rw [hget, hlatest hnot]

/-! ## A journal with a window -/

namespace Journal

/-- An array is made in each bank, and both are entity 1. -/
def arraysMade : Journal :=
  (((start {}).step (.newArray 3)).step (.setMode .globalVM)).step (.newArray 2)

/-- The last two elements of the local one are taken out. -/
def windowTaken : Journal :=
  { arraysMade with
    arrays := .composite .array { size := 2, ent := 1, offset := 1 } :: arraysMade.arrays }

/-- Its last element is stored to directly and through the window, and the global array too. -/
def windowStored : Journal :=
  ((windowTaken.step (.arrayPut (.composite .array { size := 3, ent := 1 }) 2 (.integer 5))).step
    (.arrayPut (.composite .array { size := 2, ent := 1, offset := 1 }) 1 (.integer 9))).step
    (.arrayPut (.composite .array { size := 2, ent := 1, bank := .globalVM }) 1 (.integer 7))

/-- A level is opened in its bank. -/
def windowSaved : Journal := windowStored.step (.onArena .localVM .save)

theorem arrays_arraysMade : arraysMade.arrays =
    [.composite .array { size := 2, ent := 1, bank := .globalVM },
      .composite .array { size := 3, ent := 1 }] := by
  decide +kernel

theorem run_windowSaved : windowSaved.Run {} := by
  have hmade : arraysMade.Run {} := .call (.call (.call .start trivial) trivial) trivial
  have hnarrow : (Object.composite .array { size := 3, ent := 1 }).narrow 1 2 =
      .ok (.composite .array { size := 2, ent := 1, offset := 1 }) := rfl
  have htaken : windowTaken.Run {} := .narrow hmade (by simp [arrays_arraysMade]) hnarrow
  have hstored : windowStored.Run {} := .call (.call (.call htaken (by decide +kernel : _ ∈ _))
    (by decide +kernel : _ ∈ _)) (by decide +kernel : _ ∈ _)
  exact .call hstored trivial

theorem mem_arrays_windowSaved :
    .composite .array { size := 3, ent := 1 } ∈ windowSaved.arrays := by
  have hstored : windowStored.arrays = windowTaken.arrays := by decide +kernel
  have hsaved : windowSaved.arrays = windowTaken.arrays := step_save.1.trans hstored
  rw [hsaved, windowTaken, arrays_arraysMade]
  simp

theorem notes_windowSaved : windowSaved.notes =
    [.stored .globalVM 1 1 (.integer 7), .stored .localVM 1 2 (.integer 9),
      .stored .localVM 1 2 (.integer 5), .made .globalVM 1, .made .localVM 1] :=
  step_save.2.trans (by decide +kernel)

end Journal

/-- The element stored to twice is read through the whole array. -/
theorem read_latest_stored_window :
    let whole : View := { size := 3, ent := 1 }
    whole.InRange 2 ∧ Journal.Unrestored whole.bank whole.ent Journal.windowSaved.notes ∧
      Context.arrayGet (.composite .array whole) 2 Journal.windowSaved.context =
        .ok (.integer 9) := by
  intro whole
  have hi : whole.InRange 2 := ⟨by decide, by decide⟩
  have hget := (read_latest_stored Journal.run_windowSaved Journal.mem_arrays_windowSaved 2).2.1 rfl hi
  rw [Journal.notes_windowSaved] at hget ⊢
  exact ⟨hi, .inr (.inl ⟨rfl, rfl⟩), hget (.inr (.inl ⟨rfl, rfl⟩))⟩

end BankedMemory
