import BankedMemory.Proofs.Client.Runs

/-!
# Stacks are lists

`Client.list` is what a stack holds, bottom first. `Call.ActsOnList` says of each stack call what it
answers and what list it leaves; `stacks_act_as_lists` says that this is all that happens to the
lists, however the calls on stacks, arrays and save levels are mixed.
-/

namespace BankedMemory

def Client.list (c : Client) (s : Stack) : List Object :=
  match s.toList c.arena with
  | .ok vals => vals
  | .error _ => []

namespace History

def Answers (h : History) (call : Arena.Call) (reply : Reply) : Prop :=
  ∃ b, call.run h.now.arena = .ok reply b

/-- The call asks for a value that is not there, and changes nothing. -/
def Underflows (h : History) (call : Arena.Call) : Prop :=
  ∃ f, call.run h.now.arena = .error f h.now.arena ∧ f.report.condition = .stackUnderflow

/-- The push would fill the last segment of the stack, there is no storage for another one, and
nothing changes. -/
def Overflows (h : History) (s : Stack) (o : Object) : Prop :=
  ∃ f, (Arena.Call.push s o).run h.now.arena = .error f h.now.arena ∧
    h.now.arena.OutOfStorage f ∧ (h.now.list s).length % segmentSize = segmentSize - 1 ∧
    (∃ w, h.now.arena.walk s.handle = .ok w ∧ w.header.next = none) ∧
    Arena.allocate segmentBytes .stack h.now.arena = .error f h.now.arena

end History

/-- A stack call does on the stack's segments what it would do on a list. -/
def Arena.Call.ActsOnList (h : History) (call : Arena.Call) : Prop :=
  match call with
  | .newStack =>
    (∃ s, s ∉ h.now.liveStacks ∧ h.Answers call (.handle s.handle) ∧
      (h.step call).now.liveStacks = s :: h.now.liveStacks ∧ (h.step call).now.list s = []) ∨
    ∃ f, call.run h.now.arena = .error f h.now.arena ∧ h.now.arena.OutOfStorage f
  | .push s o =>
    (h.Answers call .done ∧ (h.step call).now.list s = h.now.list s ++ [o]) ∨ h.Overflows s o
  | .pop s =>
    (∃ vals o, h.now.list s = vals ++ [o] ∧ h.Answers call (.object o) ∧
      (h.step call).now.list s = vals) ∨
    (h.now.list s = [] ∧ h.Underflows call)
  | .count s => h.Answers call (.number (h.now.list s).length)
  | .isEmpty s => h.Answers call (.flag (h.now.list s).isEmpty)
  | .bottom s i =>
    if hi : i < (h.now.list s).length then h.Answers call (.object (h.now.list s)[i])
    else h.Underflows call
  | .top s i =>
    if hi : i < (h.now.list s).length then
      h.Answers call (.object (h.now.list s)[(h.now.list s).length - 1 - i])
    else h.Underflows call
  | .setBottom s i o =>
    if i < (h.now.list s).length then
      h.Answers call .done ∧ (h.step call).now.list s = (h.now.list s).set i o
    else h.Underflows call
  | .setTop s i o =>
    if i < (h.now.list s).length then
      h.Answers call .done ∧
        (h.step call).now.list s = (h.now.list s).set ((h.now.list s).length - 1 - i) o
    else h.Underflows call
  | .freeStack s =>
    h.Answers call .done ∧ (h.step call).now.liveStacks = h.now.liveStacks.erase s
  | .listing s => h.Answers call (.text (Stack.lines 0 (h.now.list s)))
  | _ => True

variable {extra : Prop} {terms : Terms} {base limit : Nat} {h : History} {l : Ledger}
  {log : Nat → List Record} {a b : Arena} {call : Arena.Call} {reply : Reply} {s : Stack}
  {o : Object} {i : Nat}

namespace History

/-- A call that looks answers what it sees. -/
theorem answers_of_reading {α : Type} {look : Arena → Except Fault α} {put : α → Reply} {x : α}
    (hrun : call.run = ArenaM.reading fun a => do return put (← look a))
    (hlook : look h.now.arena = .ok x) : h.Answers call (put x) := by
  refine ⟨h.now.arena, ?_⟩
  rw [hrun]
  refine ArenaM.reading_of_ok ?_
  rw [hlook]
  rfl

theorem underflows_of_reading {α : Type} {look : Arena → Except Fault α} {put : α → Reply}
    {op : String} (hrun : call.run = ArenaM.reading fun a => do return put (← look a))
    (hlook : look h.now.arena = .error (.stackEmpty op)) : h.Underflows call := by
  refine ⟨.stackEmpty op, ?_, rfl⟩
  rw [hrun]
  refine ArenaM.reading_of_error ?_
  rw [hlook]
  rfl

end History

namespace Holdings

theorem list_eq (hh : Holdings base h l log) (hs : s ∈ h.now.liveStacks) :
    h.now.list s = l.values (.stack s) := by
  unfold Client.list
  rw [hh.toList_eq hs]

end Holdings

namespace Account

/-- The list of a stack after a call that succeeds. -/
theorem list_after {l' : Ledger} {log' : Nat → List Record}
    (hrun : call.run h.now.arena = .ok reply b) (hsave : call ≠ .save) (hrestore : call ≠ .restore)
    (hA : Account terms ⟨h.now.settle call reply b, h.past⟩ l' log')
    (hs : s ∈ (h.now.settle call reply b).liveStacks) :
    (h.step call).now.list s = l'.values (.stack s) := by
  rw [History.step_of_ok hrun hsave hrestore]
  exact hA.list_eq hs

theorem acts_newStack (hA : Account terms h l log) : Arena.Call.newStack.ActsOnList h := by
  rcases hA.newStack_call with ⟨k, b, hrun, hnew, hAb, -⟩ | ⟨f, hrun, hf⟩
  · have hok : Arena.Call.newStack.run h.now.arena = .ok (.handle k) b := EStateM.bind_of_ok hrun
    refine .inl ⟨⟨k⟩, hnew, ⟨b, hok⟩, ?_, ?_⟩
    · rw [History.step_of_ok hok (by simp) (by simp)]
      rfl
    · rw [list_after hok (by simp) (by simp) hAb List.mem_cons_self, Ledger.values_set_self]
  · exact .inr ⟨f, EStateM.bind_of_error hrun, hf⟩

/-- The walk to the segment in use ends at the end of the chain if no segment follows it. -/
theorem walk_next (hA : Account terms h l log) (hs : s ∈ h.now.liveStacks)
    (hlast : (l.held (.stack s))[(l.values (.stack s)).length / segmentSize + 1]? = none) :
    ∃ w, h.now.arena.walk s.handle = .ok w ∧ w.header.next = none := by
  obtain ⟨seg, -, hwalk⟩ := (hA.laid_stack hs).walk_eq hA.describes.sound (hA.stack s hs)
  exact ⟨_, hwalk, hlast⟩

theorem acts_push (hA : Account terms h l log) (hs : s ∈ h.now.liveStacks) (o : Object) :
    (Arena.Call.push s o).ActsOnList h := by
  have hnow := hA.list_eq hs
  rcases hA.push_call hs o with ⟨rows, b, hrun, -, hAb, -⟩ | ⟨f, hrun, hf, hfilling, hlast, hstorage⟩
  · have hok : (Arena.Call.push s o).run h.now.arena = .ok .done b := EStateM.bind_of_ok hrun
    refine .inl ⟨⟨b, hok⟩, ?_⟩
    rw [list_after hok (by simp) (by simp) hAb hs, Ledger.values_set_self, hnow]
  · refine .inr ⟨f, EStateM.bind_of_error hrun, hf, ?_, hA.walk_next hs hlast, hstorage⟩
    rw [hnow]
    omega

theorem acts_pop (hA : Account terms h l log) (hs : s ∈ h.now.liveStacks) :
    (Arena.Call.pop s).ActsOnList h := by
  have hnow := hA.list_eq hs
  rcases List.eq_nil_or_concat (l.values (.stack s)) with hnil | ⟨vals, o, hvals⟩
  · have hlaid := hA.laid_stack hs
    rw [hnil] at hlaid hnow
    exact .inr ⟨hnow, _, EStateM.map_of_error
      (hlaid.pop_nil hA.describes.sound (hA.stack s hs)), rfl⟩
  · rw [List.concat_eq_append] at hvals
    obtain ⟨b, hrun, hAb, -⟩ := hA.pop_call hs hvals
    have hok : (Arena.Call.pop s).run h.now.arena = .ok (.object o) b := EStateM.map_of_ok hrun
    refine .inl ⟨vals, o, hnow.trans hvals, ⟨b, hok⟩, ?_⟩
    rw [list_after hok (by simp) (by simp) hAb hs, Ledger.values_set_self]

theorem acts_bottom (hA : Account terms h l log) (hs : s ∈ h.now.liveStacks) (i : Nat) :
    (Arena.Call.bottom s i).ActsOnList h := by
  have hlaid := hA.laid_stack hs
  rw [← hA.list_eq hs] at hlaid
  show if hi : i < (h.now.list s).length then _ else _
  split
  · next hi =>
    exact History.answers_of_reading rfl (hlaid.bottom_eq hA.describes.sound (hA.stack s hs)
      (List.getElem?_eq_getElem hi))
  · next hi =>
    exact History.underflows_of_reading rfl (hlaid.bottom_error hA.describes.sound
      (hA.stack s hs) (Nat.le_of_not_lt hi))

theorem acts_top (hA : Account terms h l log) (hs : s ∈ h.now.liveStacks) (i : Nat) :
    (Arena.Call.top s i).ActsOnList h := by
  have hlaid := hA.laid_stack hs
  rw [← hA.list_eq hs] at hlaid
  show if hi : i < (h.now.list s).length then _ else _
  split
  · next hi =>
    have ho : (h.now.list s).reverse[i]? = some (h.now.list s)[(h.now.list s).length - 1 - i] := by
      rw [List.getElem?_reverse hi, List.getElem?_eq_getElem]
    exact History.answers_of_reading rfl (hlaid.top_eq hA.describes.sound (hA.stack s hs) ho)
  · next hi =>
    exact History.underflows_of_reading rfl (hlaid.top_error hA.describes.sound (hA.stack s hs)
      (Nat.le_of_not_lt hi))

theorem acts_setBottom (hA : Account terms h l log) (hs : s ∈ h.now.liveStacks) (i : Nat)
    (o : Object) : (Arena.Call.setBottom s i o).ActsOnList h := by
  have hnow := hA.list_eq hs
  show if i < (h.now.list s).length then _ else _
  split
  · next hi =>
    rw [hnow] at hi
    obtain ⟨b, hrun, hAb, -⟩ := hA.setBottom_call hs hi o
    have hok : (Arena.Call.setBottom s i o).run h.now.arena = .ok .done b := EStateM.bind_of_ok hrun
    refine ⟨⟨b, hok⟩, ?_⟩
    rw [list_after hok (by simp) (by simp) hAb hs, Ledger.values_set_self, hnow]
  · next hi =>
    rw [hnow] at hi
    exact ⟨_, EStateM.bind_of_error ((hA.laid_stack hs).setBottom_error hA.describes.sound
      (hA.stack s hs) (Nat.le_of_not_lt hi) o), rfl⟩

theorem acts_setTop (hA : Account terms h l log) (hs : s ∈ h.now.liveStacks) (i : Nat)
    (o : Object) : (Arena.Call.setTop s i o).ActsOnList h := by
  have hnow := hA.list_eq hs
  show if i < (h.now.list s).length then _ else _
  split
  · next hi =>
    rw [hnow] at hi
    obtain ⟨b, hrun, hAb, -⟩ := hA.setTop_call hs hi o
    have hok : (Arena.Call.setTop s i o).run h.now.arena = .ok .done b := EStateM.bind_of_ok hrun
    refine ⟨⟨b, hok⟩, ?_⟩
    rw [list_after hok (by simp) (by simp) hAb hs, Ledger.values_set_self, hnow]
  · next hi =>
    rw [hnow] at hi
    exact ⟨_, EStateM.bind_of_error ((hA.laid_stack hs).setTop_error hA.describes.sound
      (hA.stack s hs) (Nat.le_of_not_lt hi) o), rfl⟩

theorem acts_freeStack (hA : Account terms h l log) (hs : s ∈ h.now.liveStacks) :
    (Arena.Call.freeStack s).ActsOnList h := by
  obtain ⟨b, hrun, -⟩ := hA.freeStack_call hs
  have hok : (Arena.Call.freeStack s).run h.now.arena = .ok .done b := EStateM.bind_of_ok hrun
  refine ⟨⟨b, hok⟩, ?_⟩
  rw [History.step_of_ok hok (by simp) (by simp)]
  rfl

/-- Every stack call acts on its list. -/
theorem acts (hA : Account terms h l log) (may : call.May extra h) : call.ActsOnList h := by
  have hs := hA.describes.sound
  cases call with
  | newStack => exact hA.acts_newStack
  | push s o => exact hA.acts_push may o
  | pop s => exact hA.acts_pop may
  | count s =>
    have hcount := (hA.laid_stack may).count_eq hs (hA.stack s may)
    rw [← hA.list_eq may] at hcount
    exact History.answers_of_reading rfl hcount
  | isEmpty s =>
    have hempty := (hA.laid_stack may).isEmpty_eq hs (hA.stack s may)
    rw [← hA.list_eq may] at hempty
    exact History.answers_of_reading rfl hempty
  | bottom s i => exact hA.acts_bottom may i
  | top s i => exact hA.acts_top may i
  | setBottom s i o => exact hA.acts_setBottom may i o
  | setTop s i o => exact hA.acts_setTop may i o
  | freeStack s => exact hA.acts_freeStack may
  | listing s =>
    have hlist := hA.toList_eq (s := s) may
    rw [← hA.list_eq may] at hlist
    refine History.answers_of_reading rfl (x := Stack.lines 0 (h.now.list s)) ?_
    unfold Stack.listing
    rw [bind_eq_of_ok hlist]
    rfl
  | _ => exact trivial

/-- A call leaves the lists of the stacks it is not about. -/
theorem list_unchanged (hA : Account (.plain extra) h l log) (may : call.May extra h)
    (hs : s ∈ h.now.liveStacks) (hne : call.changed ≠ some s) :
    s ∈ (h.step call).now.liveStacks ∧ (h.step call).now.list s = h.now.list s := by
  obtain ⟨l', log', hkept⟩ := hA.step rfl may
  obtain ⟨hs', hvalues⟩ := hkept.values s hs hne
  exact ⟨hs', by rw [hkept.account.list_eq hs', hvalues, hA.list_eq hs]⟩

end Account

/-- After any calls whatever, each stack of the client reads as its list, the next call acts on that
list as it should, and on no other. -/
theorem stacks_act_as_lists (hr : h.Run extra limit) (may : call.May extra h) :
    (∀ s ∈ h.now.liveStacks, s.toList h.now.arena = .ok (h.now.list s)) ∧ call.ActsOnList h ∧
      ∀ s ∈ h.now.liveStacks, call.changed ≠ some s →
        s ∈ (h.step call).now.liveStacks ∧ (h.step call).now.list s = h.now.list s := by
  obtain ⟨l, log, hA⟩ := hr.account
  refine ⟨fun s hs => ?_, hA.acts may, fun s hs hne => hA.list_unchanged may hs hne⟩
  rw [hA.list_eq hs]
  exact hA.toList_eq hs

/-- There is storage for the first stack, and it has the first row that can be taken. -/
theorem History.live_newStack : (⟨1⟩ : Stack) ∈ ((start 1000).step .newStack).now.liveStacks := by
  decide +kernel

/-- A value is pushed on a new stack. -/
theorem stacks_act_as_lists_push :
    (⟨1⟩ : Stack) ∈ ((History.start 1000).step .newStack).now.liveStacks ∧
    (Arena.Call.push ⟨1⟩ (.integer 7)).ActsOnList ((History.start 1000).step .newStack) := by
  have hrun : ((History.start 1000).step .newStack).Run False 1000 := .call .start trivial
  have hmay : (Arena.Call.push ⟨1⟩ (.integer 7)).May False ((History.start 1000).step .newStack) :=
    History.live_newStack
  exact ⟨History.live_newStack, (stacks_act_as_lists hrun hmay).2.1⟩

end BankedMemory
