import BankedMemory.Context.Call
import BankedMemory.Proofs.Arena.Running
import BankedMemory.Proofs.Arena.Steps
import BankedMemory.Proofs.Client.History

/-!
# Sessions of a client

A client of a context works with both of its arenas through the context. It gets values from it: new
arrays, elements it reads, and windows on these or the same with fewer rights. A `Session` is where
it is now, and `Run` is every session there can be: any calls in any order and any windows, as long
as the arrays it names are values it got, the composites it stores too, and the stacks are its own.
The context stays as strict as it was; what lies on the stacks is up to the client.
-/

namespace BankedMemory

theorem Object.eq_of_array? {o : Object} {op : String} {v : View} (h : o.array? op = .ok v) :
    o = .composite .array v := by
  unfold array? at h
  split at h
  · cases h
    rfl
  · cases h

/-- Without permission the global bank takes no local composite. -/
theorem Bank.global_of_accept {dest : Bank} {o : Object} {permissive : Bool} {op : String} {x : Unit}
    (h : dest.accept o permissive op = .ok x) (hstrict : permissive = false)
    (hdest : dest = .globalVM) (hcomposite : o.isComposite) : o.bank = .globalVM := by
  unfold accept at h
  split at h
  · cases h
  · next hnot =>
    cases hbank : o.bank with
    | globalVM => rfl
    | localVM => exact absurd ⟨hdest, hcomposite, hbank, by rw [hstrict]; rfl⟩ hnot

namespace Context

/-- The context with another arena in a bank. -/
def withArena (c : Context) (bank : Bank) (a : Arena) : Context :=
  match bank with
  | .localVM => { c with localArena := a }
  | .globalVM => { c with globalArena := a }

variable {α : Type} {c : Context} {bank : Bank} {act : ArenaM α} {a : Arena} {x : α} {f : Fault}

@[simp] theorem arena_withArena_self : (c.withArena bank a).arena bank = a := by
  cases bank <;> rfl

theorem arena_withArena_ne {other : Bank} (hne : other ≠ bank) :
    (c.withArena bank a).arena other = c.arena other := by
  cases bank <;> cases other <;> first | rfl | exact absurd rfl hne

@[simp] theorem permissive_withArena : (c.withArena bank a).permissive = c.permissive := by
  cases bank <;> rfl

@[simp] theorem withArena_arena : c.withArena bank (c.arena bank) = c := by
  cases bank <;> rfl

theorem onArena_of_ok (h : act (c.arena bank) = .ok x a) :
    onArena bank act c = .ok x (c.withArena bank a) := by
  cases bank <;> (simp only [arena] at h; simp only [onArena, h, withArena])

theorem onArena_of_error (h : act (c.arena bank) = .error f a) :
    onArena bank act c = .error f (c.withArena bank a) := by
  cases bank <;> (simp only [arena] at h; simp only [onArena, h, withArena])

/-- What succeeds in a bank has succeeded on its arena. -/
theorem exists_of_onArena_ok {d : Context} (h : onArena bank act c = .ok x d) :
    ∃ b, act (c.arena bank) = .ok x b ∧ d = c.withArena bank b := by
  cases hact : act (c.arena bank) with
  | error f b => cases (onArena_of_error hact).symm.trans h
  | ok y b =>
    cases (onArena_of_ok hact).symm.trans h
    exact ⟨b, rfl, rfl⟩

theorem newArray_of_ok {size : Nat} {o : Object}
    (h : Arena.newArray size (c.arena c.mode) = .ok o a) :
    newArray size c = .ok (o.inBank c.mode) (c.withArena c.mode a) := by
  have hmode : currentMode c = .ok c.mode c := rfl
  unfold newArray
  rw [EStateM.bind_of_ok hmode, EStateM.bind_of_ok (onArena_of_ok h)]
  rfl

theorem newArray_of_error {size : Nat} (h : Arena.newArray size (c.arena c.mode) = .error f a) :
    newArray size c = .error f (c.withArena c.mode a) := by
  have hmode : currentMode c = .ok c.mode c := rfl
  unfold newArray
  rw [EStateM.bind_of_ok hmode, EStateM.bind_of_error (onArena_of_error h)]

theorem reading_of_ok {look : Context → Except Fault α} (h : look c = .ok x) :
    reading look c = .ok x c := by
  unfold reading; rw [h]

theorem reading_of_error {look : Context → Except Fault α} (h : look c = .error f) :
    reading look c = .error f c := by
  unfold reading; rw [h]

/-- Asking leaves the context, whatever is answered. -/
theorem reading_cases (look : Context → Except Fault α) (c : Context) :
    (∃ f, reading look c = .error f c) ∨ ∃ x, reading look c = .ok x c := by
  cases hlook : look c with
  | error f => exact .inl ⟨f, reading_of_error hlook⟩
  | ok x => exact .inr ⟨x, reading_of_ok hlook⟩

/-- The context a client goes on with when a call failed and left `d`. Nothing comes after a call
that stops the program, so such a call is left out. -/
def afterFault (c : Context) (f : Fault) (d : Context) : Context := if f.stops then c else d

@[simp] theorem afterFault_self : c.afterFault f c = c := ite_self c

/-- A call in a bank, where the bank's arena is that of a history, takes both a step further. -/
theorem run_onArena {h : History} (hbank : c.arena bank = h.now.arena) (call : Arena.Call) :
    (∃ reply b, call.run h.now.arena = .ok reply b ∧
      (Call.onArena bank call).run c = .ok reply (c.withArena bank (h.step call).now.arena)) ∨
    ∃ f b d, call.run h.now.arena = .error f b ∧ (Call.onArena bank call).run c = .error f d ∧
      c.afterFault f d = c.withArena bank (h.step call).now.arena := by
  cases hrun : call.run h.now.arena with
  | ok reply b =>
    refine .inl ⟨reply, b, rfl, ?_⟩
    rw [History.now_step_of_ok hrun, Client.arena_settle]
    exact onArena_of_ok (hbank ▸ hrun)
  | error f b =>
    refine .inr ⟨f, b, c.withArena bank b, rfl, onArena_of_error (hbank ▸ hrun), ?_⟩
    unfold afterFault
    split
    · next hstop => rw [History.step_of_stop hrun hstop, ← hbank, withArena_arena]
    · next hgoes => rw [History.step_of_error hrun hgoes]

/-- A store is refused, or comes to the array's arena. A strict context has let nothing local into
the global bank. -/
theorem arrayPut_cases (array : Object) (i : Int32) (o : Object) (c : Context) :
    (∃ f, arrayPut array i o c = .error f c) ∨
    ∃ v, array = .composite .array v ∧
      (c.permissive = false → v.bank = .globalVM → o.isComposite → o.bank = .globalVM) ∧
      arrayPut array i o c = onArena v.bank (Arena.arrayPut array i o) c := by
  unfold arrayPut
  cases hview : array.array? "bank_array_put" with
  | error f => exact .inl ⟨f, EStateM.bind_of_error (reading_of_error rfl)⟩
  | ok v =>
    have hv : reading (fun _ => (Except.ok v : Except Fault View)) c = .ok v c := rfl
    rw [EStateM.bind_of_ok hv]
    simp only
    split
    · exact .inl ⟨_, EStateM.bind_of_error rfl⟩
    · cases haccept : v.bank.accept o c.permissive "bank_array_put" with
      | error f => exact .inl ⟨f, EStateM.bind_of_error (reading_of_error haccept)⟩
      | ok x =>
        exact .inr ⟨v, Object.eq_of_array? hview, Bank.global_of_accept haccept,
          EStateM.bind_of_ok (reading_of_ok haccept)⟩

/-- What is read comes from the array's arena. -/
theorem arrayGet_of_ok {array o : Object} {i : Int32} (h : arrayGet array i c = .ok o) :
    ∃ v, array = .composite .array v ∧ Arena.arrayGet array i (c.arena v.bank) = .ok o := by
  obtain ⟨v, hview, h⟩ := exists_of_bind_ok h
  split at h
  · cases h
  · exact ⟨v, Object.eq_of_array? hview, h⟩

end Context

structure Session where
  context : Context
  /-- The values it got, the latest first. -/
  values : List Object
  /-- The stacks it made in a bank and has not freed. -/
  liveStacks : Bank → List Stack

/-- The calls a client may make. -/
def Context.Call.May (s : Session) : Context.Call → Prop
  | .setMode _ | .newArray _ | .bankUsage _ | .accept _ _ _ _ => True
  | .setPermissive permissive => permissive = false
  | .arrayPut array _ o => array ∈ s.values ∧ (o.isComposite → o ∈ s.values)
  | .arrayGet array _ => array ∈ s.values
  | .onArena bank call =>
    match call with
    | .save | .restore | .newStack | .depth | .usage => True
    | .push p _ | .pop p | .count p | .isEmpty p | .bottom p _ | .top p _ | .setBottom p _ _
    | .setTop p _ _ | .freeStack p | .listing p => p ∈ s.liveStacks bank
    | _ => False
  | .newUnbankedArray _ => False

namespace Session

def start (config : Config) : Session := ⟨.ofConfig config, [], fun _ => []⟩

/-- What the client keeps of a call's reply. -/
def settle (s : Session) (c : Context) : Context.Call → Reply → Session
  | .newArray _, .object o | .arrayGet _ _, .object o => ⟨c, o :: s.values, s.liveStacks⟩
  | .onArena bank .newStack, .handle h =>
    ⟨c, s.values, Function.update s.liveStacks bank (⟨h⟩ :: s.liveStacks bank)⟩
  | .onArena bank (.freeStack p), _ =>
    ⟨c, s.values, Function.update s.liveStacks bank ((s.liveStacks bank).erase p)⟩
  | _, _ => ⟨c, s.values, s.liveStacks⟩

/-- The session after one more call, whether it succeeds or fails. -/
def step (s : Session) (call : Context.Call) : Session :=
  match call.run s.context with
  | .error f c => ⟨s.context.afterFault f c, s.values, s.liveStacks⟩
  | .ok reply c => s.settle c call reply

/-- The sessions with a context of a given configuration. -/
inductive Run (config : Config) : Session → Prop where
  | start : Run config (start config)
  | call {s : Session} {call : Context.Call} (run : Run config s) (may : call.May s) :
      Run config (s.step call)
  | narrow {s : Session} {o q : Object} {offset size : Int32} (run : Run config s)
      (got : o ∈ s.values) (narrowed : o.narrow offset size = .ok q) :
      Run config { s with values := q :: s.values }
  | restrict {s : Session} {o q : Object} {access : Access} (run : Run config s)
      (got : o ∈ s.values) (restricted : o.restrict access = .ok q) :
      Run config { s with values := q :: s.values }

end Session

end BankedMemory
