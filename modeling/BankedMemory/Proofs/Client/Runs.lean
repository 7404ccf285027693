import BankedMemory.Proofs.Checkpoint.Restoring
import BankedMemory.Proofs.Checkpoint.Saving
import BankedMemory.Proofs.Checkpoint.Storing
import BankedMemory.Proofs.Client.Stacks

/-!
# Every call keeps the account

`Account.step` goes through the calls a client may make; `Run.account` is the induction over a whole
history. What a call answers is told where it matters.
-/

namespace BankedMemory

/-- The stack whose values a call can change. -/
def Arena.Call.changed : Arena.Call → Option Stack
  | .push s _ | .pop s | .setBottom s _ _ | .setTop s _ _ | .freeStack s => some s
  | _ => none

variable {extra : Prop} {terms : Terms} {limit : Nat} {h : History} {l : Ledger}
  {log : Nat → List Record} {b : Arena} {call : Arena.Call} {reply : Reply} {f : Fault}

/-- The calls after which an array made before may show something else. -/
def Arena.Call.Rewrites : Arena.Call → Prop
  | .arrayPut _ _ _ | .restore => True
  | _ => False

/-- Every row is left as it was. Only a first save may have made the save stack. -/
def Arena.Call.Harmless (call : Arena.Call) (a b : Arena) : Prop :=
  Arena.Touches ∅ a b ∨ call = .save ∧ ∃ r, a.SavesMade b r

/-- The account after a call, and what it leaves of the stacks and arrays it is not about. -/
structure Kept (terms : Terms) (h : History) (l : Ledger) (call : Arena.Call) (l' : Ledger)
    (log' : Nat → List Record) : Prop where
  account : Account terms (h.step call) l' log'
  values : ∀ s ∈ h.now.liveStacks, call.changed ≠ some s →
    s ∈ (h.step call).now.liveStacks ∧ l'.values (.stack s) = l.values (.stack s)
  rows : ∀ s ∈ h.now.liveStacks, call.changed ≠ some s → l'.held (.stack s) = l.held (.stack s)
  arrays : ¬call.Rewrites → h.now.ArraysKept (h.step call).now.arena
  failed : ∀ f b, call.run h.now.arena = .error f b → ¬f.stops → call.Harmless h.now.arena b

/-- There is an account of what comes after the call. -/
def Accounted (terms : Terms) (h : History) (l : Ledger) (call : Arena.Call) : Prop :=
  ∃ l' log', Kept terms h l call l' log'

namespace Account

theorem arraysKept_of_harmless (hA : Account terms h l log)
    (hb : call.Harmless h.now.arena b) : h.now.ArraysKept b := by
  refine Client.arraysKept_of_cell fun e he => ?_
  rcases hb with t | ⟨-, r, hmade⟩
  · exact t.cell e id
  · refine hmade.cell e ?_
    rintro rfl
    obtain ⟨x, hx⟩ := hA.cell_entity he
    rw [hmade.new] at hx
    cases hx

/-- A call that fails is accounted for if what it leaves is. One that stops the program leaves
nothing to be accounted for. -/
theorem kept_of_error (hA : Account terms h l log) (hrun : call.run h.now.arena = .error f b)
    (hfailed : ¬f.stops → ∃ l' log',
      Account terms ⟨⟨b, h.now.arrays, h.now.liveStacks⟩, h.past⟩ l' log' ∧
        l'.SameStacks l ∧ call.Harmless h.now.arena b) : Accounted terms h l call := by
  by_cases hstop : f.stops
  · have hstep := History.step_of_stop hrun hstop
    refine ⟨l, log, hstep.symm ▸ hA, fun s hs _ => ⟨hstep.symm ▸ hs, rfl⟩, fun _ _ _ => rfl,
      fun _ => hstep.symm ▸ .refl _, fun f' b' hrun' hgoes => ?_⟩
    cases hrun.symm.trans hrun'
    exact absurd hstop hgoes
  · obtain ⟨l', log', hAb, hsame, hb⟩ := hfailed hstop
    have hstep := History.step_of_error hrun hstop
    refine ⟨l', log', ?_, fun s hs _ => ⟨?_, (hsame s).2⟩, fun s _ _ => (hsame s).1, fun _ => ?_,
      fun f' b' hrun' _ => ?_⟩
    · rw [hstep]
      exact hAb
    · rw [hstep]
      exact hs
    · rw [hstep]
      exact hA.arraysKept_of_harmless hb
    · cases hrun.symm.trans hrun'
      exact hb

/-- A call that failed and changed nothing. -/
theorem kept_of_refused (hA : Account terms h l log)
    (hrun : call.run h.now.arena = .error f h.now.arena) : Accounted terms h l call :=
  hA.kept_of_error hrun fun _ => ⟨l, log, hA, .refl l, .inl (.refl hA.describes.sound)⟩

theorem kept_of_ok {l' : Ledger} {log' : Nat → List Record}
    (hrun : call.run h.now.arena = .ok reply b) (hsave : call ≠ .save) (hrestore : call ≠ .restore)
    (hA : Account terms ⟨h.now.settle call reply b, h.past⟩ l' log')
    (hstacks : ∀ s ∈ h.now.liveStacks, call.changed ≠ some s →
      s ∈ (h.now.settle call reply b).liveStacks ∧
        l'.held (.stack s) = l.held (.stack s) ∧ l'.values (.stack s) = l.values (.stack s))
    (harrays : ¬call.Rewrites → h.now.ArraysKept b) : Accounted terms h l call := by
  have hstep := History.step_of_ok hrun hsave hrestore
  refine ⟨l', log', ?_, fun s hs hne => ?_, fun s hs hne => (hstacks s hs hne).2.1, fun hnot => ?_,
    fun f' b' hrun' _ => ?_⟩
  · rw [hstep]
    exact hA
  · rw [hstep]
    exact ⟨(hstacks s hs hne).1, (hstacks s hs hne).2.2⟩
  · rw [hstep]
    simp only
    rw [Client.arena_settle]
    exact harrays hnot
  · rw [hrun] at hrun'
    cases hrun'

theorem kept_of_reading (hA : Account terms h l log) {look : Arena → Except Fault Reply}
    (hrun : call.run = ArenaM.reading look) (hsave : call ≠ .save) (hrestore : call ≠ .restore)
    (hsettle : ∀ reply, h.now.settle call reply h.now.arena = h.now) : Accounted terms h l call := by
  cases hlook : look h.now.arena with
  | ok reply =>
    have hok : call.run h.now.arena = .ok reply h.now.arena := by
      rw [hrun, ArenaM.reading_of_ok hlook]
    have hsame := hsettle reply
    have hAb : Account terms ⟨h.now.settle call reply h.now.arena, h.past⟩ l log := by
      rw [hsame]
      exact hA
    refine kept_of_ok hok hsave hrestore hAb (fun s hs _ => ⟨?_, rfl, rfl⟩) fun _ => .refl _
    rw [hsame]
    exact hs
  | error f =>
    refine hA.kept_of_refused (f := f) ?_
    rw [hrun, ArenaM.reading_of_error hlook]

/-- A call on one stack leaves the others. -/
theorem stack_other {s p : Stack} {rows : List Handle} {vals : List Object} (hne : p ≠ s) :
    (l.set (.stack s) rows vals).held (.stack p) = l.held (.stack p) ∧
      (l.set (.stack s) rows vals).values (.stack p) = l.values (.stack p) :=
  have howner : Owner.stack p ≠ .stack s := by simpa using hne
  ⟨Ledger.held_set_ne howner, Ledger.values_set_ne howner⟩

theorem kept_newArray (hA : Account terms h l log) (size : Nat) :
    Accounted terms h l (.newArray size) := by
  rcases hA.newArray_spec size with ⟨v, b, l', hrun, hAb, hsame, -, hkept, -⟩ | ⟨f, hrun⟩
  · exact kept_of_ok (EStateM.map_of_ok hrun) (by simp) (by simp) hAb
      (fun s hs _ => ⟨hs, hsame s⟩) fun _ => hkept
  · exact hA.kept_of_refused (EStateM.map_of_error hrun)

theorem kept_arrayPut (hA : Account terms h l log) {array : Object}
    (harray : h.now.HasArray array) (i : Int32) (o : Object) :
    Accounted terms h l (.arrayPut array i o) := by
  rcases hA.arrayPut_spec harray i o with ⟨b, l', log', hrun, -, hAb, hsame, -⟩ | ⟨f, b, hrun, -, hkept⟩
  · exact kept_of_ok (EStateM.bind_of_ok hrun) (by simp) (by simp) hAb
      (fun s hs _ => ⟨hs, hsame s⟩) fun hnot => absurd trivial hnot
  · refine hA.kept_of_error (EStateM.bind_of_error hrun) fun hgoes => ?_
    obtain ⟨hAb, t⟩ := hkept hgoes
    exact ⟨l, log, hAb, .refl l, .inl t⟩

theorem kept_preserve (hA : Account terms h l log) (content : Content) {k : Handle}
    (hextra : terms.extra) (hk : k = 0 ∨ k ∈ h.now.entities)
    (hmade : ¬terms.wide → ∀ d rest, h.past = d :: rest → k = 0 ∨ k ∈ d.entities) :
    Accounted terms h l (.preserve content k) := by
  rcases hA.preserve_spec content hk hmade (fun hnot => absurd hextra hnot) with
    ⟨b, l', log', hrun, hAb, hsame, -, -, hkept⟩ | ⟨f, b, hrun, -, hkept⟩
  · exact kept_of_ok (EStateM.bind_of_ok hrun) (by simp) (by simp) hAb
      (fun s hs _ => ⟨hs, hsame s⟩) fun _ => hkept
  · refine hA.kept_of_error (EStateM.bind_of_error hrun) fun hgoes => ?_
    obtain ⟨hAb, t⟩ := hkept hgoes
    exact ⟨l, log, hAb, .refl l, .inl t⟩

theorem entity_or_zero (hA : Account terms h l log) {v : View} (hv : v ∈ h.now.arrays) :
    v.ent = 0 ∨ v.ent ∈ h.now.entities := by
  by_cases hsize : v.size = 0
  · exact .inl ((hA.root v hv).2 hsize)
  · exact .inr (Client.mem_entities hv hsize)

/-- An array that was there when the latest level was opened. -/
theorem entity_or_zero_saved (hA : Account terms h l log) {v : View} {d : Client}
    {rest : List Client} (hp : h.past = d :: rest) (hv : v ∈ d.arrays) :
    v.ent = 0 ∨ v.ent ∈ d.entities := by
  by_cases hsize : v.size = 0
  · exact .inl ((hA.root v ((hA.arrays_suffix (innermost hp)).subset hv)).2 hsize)
  · exact .inr (Client.mem_entities hv hsize)

/-- What an array that was there when the latest level was opened can be recorded by. -/
theorem recordable (hA : Account terms h l log) {v : View}
    (hv : v ∈ (h.past.headD h.now).arrays) :
    (v.ent = 0 ∨ v.ent ∈ h.now.entities) ∧
      ∀ d rest, h.past = d :: rest → v.ent = 0 ∨ v.ent ∈ d.entities := by
  cases hp : h.past with
  | nil =>
    rw [hp, List.headD_nil] at hv
    exact ⟨hA.entity_or_zero hv, fun d rest hnil => by cases hnil⟩
  | cons d rest =>
    rw [hp, List.headD_cons] at hv
    have hd := hA.entity_or_zero_saved hp hv
    refine ⟨hd.imp_right (Client.entities_subset (hA.arrays_suffix (innermost hp))), ?_⟩
    rintro d' rest' hcons
    cases hcons
    exact hd

theorem kept_preserve_saved (hA : Account terms h l log) (content : Content) {k : Handle}
    (hextra : terms.extra) {v : View} (hv : v ∈ (h.past.headD h.now).arrays) (hk : v.ent = k) :
    Accounted terms h l (.preserve content k) := by
  subst hk
  obtain ⟨he, hd⟩ := hA.recordable hv
  exact hA.kept_preserve content hextra he fun _ => hd

theorem kept_save (hA : Account terms h l log) : Accounted terms h l .save := by
  rcases hA.save_spec with ⟨r, b, l', hrun, hAb, hsame, hkept⟩ | ⟨f, b, hrun, -, hfailed⟩
  · have hok : Arena.Call.save.run h.now.arena = .ok (.object (.save _)) b := EStateM.map_of_ok hrun
    have hstep := History.step_save_of_ok hrun
    refine ⟨l', log, ?_, fun s hs _ => ⟨?_, (hsame s).2⟩, fun s _ _ => (hsame s).1, fun _ => ?_,
      fun f' b' hrun' _ => ?_⟩
    · rw [hstep]
      exact hAb
    · rw [hstep]
      exact hs
    · rw [hstep]
      exact hkept
    · rw [hok] at hrun'
      cases hrun'
  · refine hA.kept_of_error (EStateM.map_of_error hrun) fun hgoes => ?_
    obtain ⟨l', hAb, hsame, hb⟩ := hfailed hgoes
    exact ⟨l', log, hAb, hsame, hb.imp_right fun hmade => ⟨rfl, hmade⟩⟩

theorem kept_restore (hA : Account terms h l log)
    (hbase : ∀ d rest, h.past = d :: rest → terms.base ≤ rest.length) :
    Accounted terms h l .restore := by
  cases hp : h.past with
  | nil => exact hA.kept_of_refused (EStateM.bind_of_error (hA.restore_nothing hp))
  | cons d rest =>
    obtain ⟨b, l', hrun, hc⟩ := hA.restore_spec hp (hbase d rest hp)
    have hok : Arena.Call.restore.run h.now.arena = .ok .done b := EStateM.bind_of_ok hrun
    have hstep := History.step_restore_of_ok hrun
    rw [hp, List.tail_cons] at hstep
    refine ⟨l', forgotten log rest.length, ?_, fun s hs _ => ⟨?_, hc.values _ (by simp) (by simp)⟩,
      fun s _ _ => hc.held _ (by simp) (by simp), fun hnot => absurd trivial hnot,
      fun f' b' hrun' _ => ?_⟩
    · rw [hstep]
      exact hc.account hA hp (hbase d rest hp)
    · rw [hstep]
      exact hs
    · rw [hok] at hrun'
      cases hrun'

theorem kept_newStack (hA : Account terms h l log) : Accounted terms h l .newStack := by
  rcases hA.newStack_call with ⟨k, b, hrun, hnew, hAb, hkept⟩ | ⟨f, hrun, -⟩
  · refine kept_of_ok (EStateM.bind_of_ok hrun) (by simp) (by simp) hAb (fun s hs _ =>
      ⟨List.mem_cons_of_mem _ hs, stack_other ?_⟩) fun _ => hkept
    rintro rfl
    exact hnew hs
  · exact hA.kept_of_refused (EStateM.bind_of_error hrun)

section Stacks

variable {s : Stack}

theorem kept_push (hA : Account terms h l log) (hs : s ∈ h.now.liveStacks) (o : Object) :
    Accounted terms h l (.push s o) := by
  rcases hA.push_call hs o with ⟨rows, b, hrun, -, hAb, hkept⟩ | ⟨f, hrun, -⟩
  · exact kept_of_ok (EStateM.bind_of_ok hrun) (by simp) (by simp) hAb (fun p hp hne =>
      ⟨hp, stack_other fun heq => hne (congrArg some heq.symm)⟩) fun _ => hkept
  · exact hA.kept_of_refused (EStateM.bind_of_error hrun)

theorem kept_pop (hA : Account terms h l log) (hs : s ∈ h.now.liveStacks) :
    Accounted terms h l (.pop s) := by
  rcases List.eq_nil_or_concat (l.values (.stack s)) with hnil | ⟨vals, o, hvals⟩
  · have hlaid := hA.laid_stack hs
    rw [hnil] at hlaid
    exact hA.kept_of_refused (EStateM.map_of_error
      (hlaid.pop_nil hA.describes.sound (hA.stack s hs)))
  · rw [List.concat_eq_append] at hvals
    obtain ⟨b, hrun, hAb, hkept⟩ := hA.pop_call hs hvals
    exact kept_of_ok (EStateM.map_of_ok hrun) (by simp) (by simp) hAb (fun p hp hne =>
      ⟨hp, stack_other fun heq => hne (congrArg some heq.symm)⟩) fun _ => hkept

theorem kept_setBottom (hA : Account terms h l log) (hs : s ∈ h.now.liveStacks) (i : Nat)
    (o : Object) : Accounted terms h l (.setBottom s i o) := by
  rcases Nat.lt_or_ge i (l.values (.stack s)).length with hi | hi
  · obtain ⟨b, hrun, hAb, hkept⟩ := hA.setBottom_call hs hi o
    exact kept_of_ok (EStateM.bind_of_ok hrun) (by simp) (by simp) hAb (fun p hp hne =>
      ⟨hp, stack_other fun heq => hne (congrArg some heq.symm)⟩) fun _ => hkept
  · exact hA.kept_of_refused (EStateM.bind_of_error
      ((hA.laid_stack hs).setBottom_error hA.describes.sound (hA.stack s hs) hi o))

theorem kept_setTop (hA : Account terms h l log) (hs : s ∈ h.now.liveStacks) (i : Nat)
    (o : Object) : Accounted terms h l (.setTop s i o) := by
  rcases Nat.lt_or_ge i (l.values (.stack s)).length with hi | hi
  · obtain ⟨b, hrun, hAb, hkept⟩ := hA.setTop_call hs hi o
    exact kept_of_ok (EStateM.bind_of_ok hrun) (by simp) (by simp) hAb (fun p hp hne =>
      ⟨hp, stack_other fun heq => hne (congrArg some heq.symm)⟩) fun _ => hkept
  · exact hA.kept_of_refused (EStateM.bind_of_error
      ((hA.laid_stack hs).setTop_error hA.describes.sound (hA.stack s hs) hi o))

theorem kept_freeStack (hA : Account terms h l log) (hs : s ∈ h.now.liveStacks) :
    Accounted terms h l (.freeStack s) := by
  obtain ⟨b, hrun, hAb, hkept⟩ := hA.freeStack_call hs
  refine kept_of_ok (EStateM.bind_of_ok hrun) (by simp) (by simp) hAb (fun p hp hne => ?_)
    fun _ => hkept
  have hps : p ≠ s := fun heq => hne (congrArg some heq.symm)
  exact ⟨hA.liveStacks_nodup.mem_erase_iff.mpr ⟨hps, hp⟩, stack_other hps⟩

end Stacks

/-- One call, whatever it is, if a restore does not come to a level that is given up. -/
theorem step_of_base (hA : Account terms h l log)
    (hbase : call = .restore → ∀ d rest, h.past = d :: rest → terms.base ≤ rest.length)
    (may : call.May terms.extra h) : Accounted terms h l call := by
  cases call with
  | newArray size => exact hA.kept_newArray size
  | arrayPut array i o => exact hA.kept_arrayPut may i o
  | preserve content k =>
    obtain ⟨hextra, v, hv, hk⟩ := may
    exact hA.kept_preserve_saved content hextra hv hk
  | save => exact hA.kept_save
  | restore => exact hA.kept_restore (hbase rfl)
  | newStack => exact hA.kept_newStack
  | push s o => exact hA.kept_push may o
  | pop s => exact hA.kept_pop may
  | setBottom s i o => exact hA.kept_setBottom may i o
  | setTop s i o => exact hA.kept_setTop may i o
  | freeStack s => exact hA.kept_freeStack may
  | usage | entry | read | readSlot | arrayGet | depth | preserved | count | isEmpty | bottom
  | top | listing =>
    exact hA.kept_of_reading (by unfold Arena.Call.run; rfl) (by simp) (by simp) fun _ => rfl
  | allocate | allocateCollectable | free | setMark | lowerTopLevels | write | writeSlot
  | copyContents | exchange => exact may.elim

theorem step (hA : Account terms h l log) (hbase : terms.base = 0) (may : call.May terms.extra h) :
    Accounted terms h l call :=
  hA.step_of_base (fun _ _ _ _ => hbase ▸ Nat.zero_le _) may

end Account

namespace History

/-- Every history of a client can be accounted for. -/
theorem Run.account (hr : Run extra limit h) : ∃ l log, Account (.plain extra) h l log := by
  induction hr with
  | start => exact ⟨_, _, account_start rfl limit⟩
  | call _ may ih =>
    obtain ⟨l, log, hA⟩ := ih
    obtain ⟨l', log', hkept⟩ := hA.step rfl may
    exact ⟨l', log', hkept.account⟩

/-! ## A history with a level open -/

/-- An array is made and a level opened. -/
def arraySaved : History := ((start 1000).step (.newArray 1)).step .save

theorem run_arraySaved : arraySaved.Run extra 1000 :=
  .call (.call .start trivial) trivial

theorem arrays_newArray_zero :
    (h.step (.newArray 0)).now.arrays = { size := 0, ent := 0 } :: h.now.arrays := rfl

/-- The array of `arraySaved` has the first row that can be taken. -/
theorem arrays_arraySaved : arraySaved.now.arrays = [{ size := 1, ent := 1 }] := by
  unfold arraySaved
  rw [arrays_step (by simp)]
  decide +kernel

/-- The array is stored to in the level. -/
def arrayStored : History :=
  arraySaved.step (.arrayPut (.composite .array { size := 1, ent := 1 }) 0 (.integer 7))

theorem run_arrayStored : arrayStored.Run extra 1000 := by
  have hv : ({ size := 1, ent := 1 } : View) ∈ arraySaved.now.arrays := by
    rw [arrays_arraySaved]
    exact List.mem_singleton_self _
  exact .call run_arraySaved ⟨_, hv, .self⟩

/-- There was storage for the save stack, for the stack of records and for the copy, in this
order. -/
theorem arena_arrayStored : let a := arrayStored.now.arena
    a.depth = .ok 1 ∧ a.saveStack.toList a = .ok [.save ⟨1, 3⟩] ∧
      (Stack.mk 3).toList a = .ok [.record ⟨1, 4⟩] ∧ a.chain 3 = .ok [3] ∧
      a.preserved 1 = .ok true ∧
      Arena.arrayGet (.composite .array { size := 1, ent := 1 }) 0 a = .ok (.integer 7) := by
  decide +kernel

/-- The level has the array recorded, and nothing else. -/
theorem keeps_arrayStored : arrayStored.now.arena.Keeps [⟨⟨1, 3⟩, [⟨1, 4⟩]⟩] where
  depth := ⟨1, arena_arrayStored.1, rfl⟩
  level _ := arena_arrayStored.2.1
  record _ hv := List.mem_singleton.mp hv ▸ arena_arrayStored.2.2.1

theorem past_arrayStored : arrayStored.past = arraySaved.past := past_step (by simp) (by simp)

theorem arrays_arrayStored : arrayStored.now.arrays = [{ size := 1, ent := 1 }] := by
  unfold arrayStored
  rw [arrays_step (by simp)]
  exact arrays_arraySaved

theorem length_past_arraySaved : arraySaved.past.length = 1 := by
  have hrun : arrayStored.Run False 1000 := run_arrayStored
  obtain ⟨l, log, hA⟩ := hrun.account
  have hdepth := hA.depth_eq
  rw [arena_arrayStored.1] at hdepth
  have hlen := hA.toNat_depth
  rw [← Except.ok.inj hdepth, past_arrayStored] at hlen
  exact hlen.symm

theorem past_arraySaved : ∃ saved : Client, arraySaved.past = [saved] ∧
    saved.arrays = [{ size := 1, ent := 1 }] ∧
    Arena.arrayGet (.composite .array { size := 1, ent := 1 }) 0 saved.arena = .ok .null := by
  have hbefore : ((start 1000).step (.newArray 1)).past = [] := past_step (by simp) (by simp)
  have hopen : 0 < arraySaved.past.length := Nat.lt_of_lt_of_eq Nat.zero_lt_one
    length_past_arraySaved.symm
  have hpast := past_save (h := (start 1000).step (.newArray 1)) (by rw [hbefore]; exact hopen)
  rw [hbefore] at hpast
  have harrays := arrays_arraySaved
  unfold arraySaved at harrays
  rw [arrays_step (by simp)] at harrays
  exact ⟨_, hpast, harrays, by decide +kernel⟩

end History

end BankedMemory
