import BankedMemory.Arena.Call
import BankedMemory.Proofs.Arena.Running
import BankedMemory.Proofs.Object.Windows

/-!
# Histories of a client

A client has an arena to itself and makes calls on the arrays and stacks it got from it; some calls
fail. A `History` is where the client is now and where it was just before each save whose level is
still open. `Run` is every history there can be: any calls in any order, as long as the client keeps
to its own arrays and stacks, uses no stack it has freed, and leaves the rows, bytes and marks of
the arena to the arena.
-/

namespace BankedMemory

structure Client where
  arena : Arena
  /-- The arrays it made, the latest first. -/
  arrays : List View
  /-- The stacks it made and has not freed. -/
  liveStacks : List Stack

namespace Client

def fresh (limit : Nat) : Client := ⟨.empty limit, [], []⟩

/-- The arrays at hand are those the client made and the windows taken out of them. -/
def HasArray (c : Client) (o : Object) : Prop :=
  ∃ v ∈ c.arrays, Object.WindowOf (.composite .array v) o

/-- The entities of the arrays. An empty array has none. -/
def entities (c : Client) : List Handle := (c.arrays.filter (·.size ≠ 0)).map (·.ent)

/-- What the client holds of the arena: the entities of its arrays and the segments of its
stacks. -/
def Owns (c : Client) (k : Handle) : Prop :=
  k ∈ c.entities ∨ ∃ s ∈ c.liveStacks, ∃ segs, c.arena.chain s.handle = .ok segs ∧ k ∈ segs

/-- What the client keeps of a call's reply. -/
def settle (c : Client) : Arena.Call → Reply → Arena → Client
  | .newArray _, .object (.composite .array v), a => ⟨a, v :: c.arrays, c.liveStacks⟩
  | .newStack, .handle h, a => ⟨a, c.arrays, ⟨h⟩ :: c.liveStacks⟩
  | .freeStack s, _, a => ⟨a, c.arrays, c.liveStacks.erase s⟩
  | _, _, a => ⟨a, c.arrays, c.liveStacks⟩

variable {c : Client} {call : Arena.Call} {reply : Reply} {a : Arena}

@[simp] theorem arena_settle : (c.settle call reply a).arena = a := by
  unfold settle
  split <;> rfl

/-- No call but `newArray` brings an array. -/
theorem arrays_settle (hnew : ∀ size, call ≠ .newArray size) :
    (c.settle call reply a).arrays = c.arrays := by
  unfold settle
  split
  · exact absurd rfl (hnew _)
  all_goals rfl

theorem arrays_subset_settle : c.arrays ⊆ (c.settle call reply a).arrays := by
  unfold settle
  split
  · exact List.subset_cons_self ..
  all_goals exact List.Subset.refl _

theorem liveStacks_settle (hnew : call ≠ .newStack) (hfree : ∀ s, call ≠ .freeStack s) :
    (c.settle call reply a).liveStacks = c.liveStacks := by
  unfold settle
  split
  · rfl
  · exact absurd rfl hnew
  · exact absurd rfl (hfree _)
  · rfl

end Client

structure History where
  now : Client
  /-- The client just before each save whose level is still open, the latest first. -/
  past : List Client

/-- The calls a client may make. With `extra` it may also have an array recorded that it is not
about to change, if the array was there when the current level was opened. -/
def Arena.Call.May (extra : Prop) (h : History) : Arena.Call → Prop
  | .newArray _ | .save | .restore | .newStack => True
  | .usage | .depth | .entry _ | .preserved _ | .read _ _ _ | .readSlot _ _ => True
  | .arrayPut array _ _ | .arrayGet array _ => h.now.HasArray array
  | .preserve _ k => extra ∧ ∃ v ∈ (h.past.headD h.now).arrays, v.ent = k
  | .push s _ | .pop s | .count s | .isEmpty s | .bottom s _ | .top s _ | .setBottom s _ _
  | .setTop s _ _ | .freeStack s | .listing s => s ∈ h.now.liveStacks
  | .allocate _ _ | .allocateCollectable _ _ | .free _ | .setMark _ _ | .lowerTopLevels _
  | .write _ _ _ | .writeSlot _ _ _ | .copyContents _ _ | .exchange _ _ => False

theorem Arena.Call.May.mono {P Q : Prop} {h : History} {call : Arena.Call} (may : call.May P h)
    (hPQ : P → Q) : call.May Q h := by
  cases call with
  | preserve content k => exact ⟨hPQ may.1, may.2⟩
  | _ => exact may

namespace History

def start (limit : Nat) : History := ⟨.fresh limit, []⟩

/-- The history after one more call, whether it succeeds or fails. Nothing comes after a call that
stops the program, so such a call is left out. -/
def step (h : History) (call : Arena.Call) : History :=
  match call.run h.now.arena with
  | .error f a => if f.stops then h else ⟨⟨a, h.now.arrays, h.now.liveStacks⟩, h.past⟩
  | .ok reply a =>
    match call with
    | .save => ⟨h.now.settle call reply a, h.now :: h.past⟩
    | .restore => ⟨h.now.settle call reply a, h.past.tail⟩
    | _ => ⟨h.now.settle call reply a, h.past⟩

section Step

variable {h : History} {call : Arena.Call} {reply : Reply} {f : Fault} {b : Arena}

theorem step_of_stop (hrun : call.run h.now.arena = .error f b) (hstop : f.stops) :
    h.step call = h := by
  unfold step
  rw [hrun]
  exact if_pos hstop

theorem step_of_error (hrun : call.run h.now.arena = .error f b) (hgoes : ¬f.stops) :
    h.step call = ⟨⟨b, h.now.arrays, h.now.liveStacks⟩, h.past⟩ := by
  unfold step
  rw [hrun]
  exact if_neg hgoes

/-- Where a call that fails leaves the arena as it is, it is no matter whether it stops the
program. -/
theorem step_of_error_same (hrun : call.run h.now.arena = .error f h.now.arena) :
    h.step call = h := by
  by_cases hstop : f.stops
  · exact step_of_stop hrun hstop
  · exact step_of_error hrun hstop

theorem step_of_ok (hrun : call.run h.now.arena = .ok reply b) (hsave : call ≠ .save)
    (hrestore : call ≠ .restore) : h.step call = ⟨h.now.settle call reply b, h.past⟩ := by
  unfold step
  rw [hrun]
  cases call with
  | save => exact absurd rfl hsave
  | restore => exact absurd rfl hrestore
  | _ => rfl

theorem now_step_of_ok (hrun : call.run h.now.arena = .ok reply b) :
    (h.step call).now = h.now.settle call reply b := by
  unfold step
  rw [hrun]
  cases call <;> rfl

theorem step_newArray_of_ok {size : Nat} {v : View}
    (hrun : Arena.newArray size h.now.arena = .ok (.composite .array v) b) :
    h.step (.newArray size) = ⟨⟨b, v :: h.now.arrays, h.now.liveStacks⟩, h.past⟩ := by
  have hok : (Arena.Call.newArray size).run h.now.arena = .ok (.object (.composite .array v)) b :=
    EStateM.map_of_ok hrun
  exact step_of_ok hok (by simp) (by simp)

theorem step_newArray_of_error {size : Nat}
    (hrun : Arena.newArray size h.now.arena = .error f h.now.arena) : h.step (.newArray size) = h :=
  step_of_error_same (EStateM.map_of_error hrun)

theorem step_save_of_ok {o : Object} (hrun : Arena.save h.now.arena = .ok o b) :
    h.step .save = ⟨⟨b, h.now.arrays, h.now.liveStacks⟩, h.now :: h.past⟩ := by
  have hok : Arena.Call.save.run h.now.arena = .ok (.object o) b := EStateM.map_of_ok hrun
  unfold step
  rw [hok]
  rfl

theorem step_restore_of_ok (hrun : Arena.restore h.now.arena = .ok () b) :
    h.step .restore = ⟨⟨b, h.now.arrays, h.now.liveStacks⟩, h.past.tail⟩ := by
  have hok : Arena.Call.restore.run h.now.arena = .ok .done b := EStateM.bind_of_ok hrun
  unfold step
  rw [hok]
  rfl

/-- A call that fails opens and closes no level. -/
theorem past_step_of_error (hrun : call.run h.now.arena = .error f b) :
    (h.step call).past = h.past := by
  unfold step
  rw [hrun]
  simp only
  split <;> rfl

theorem liveStacks_step_of_error (hrun : call.run h.now.arena = .error f b) :
    (h.step call).now.liveStacks = h.now.liveStacks := by
  unfold step
  rw [hrun]
  simp only
  split <;> rfl

theorem past_step (hsave : call ≠ .save) (hrestore : call ≠ .restore) :
    (h.step call).past = h.past := by
  unfold step
  split
  · split <;> rfl
  · cases call with
    | save => exact absurd rfl hsave
    | restore => exact absurd rfl hrestore
    | _ => rfl

/-- A save that opens a level keeps what the client was. -/
theorem past_save (hopen : h.past.length < (h.step .save).past.length) :
    (h.step .save).past = h.now :: h.past := by
  unfold step at *
  split at *
  · split at hopen <;> exact absurd hopen (Nat.lt_irrefl _)
  · rfl

/-- The saves that a call leaves open were open, or it is a save and the client was as it is. -/
theorem mem_past_step {c : Client} (hc : c ∈ (h.step call).past) : c ∈ h.now :: h.past := by
  unfold step at hc
  split at hc
  · split at hc <;> exact List.mem_cons_of_mem _ hc
  · cases call with
    | save => exact hc
    | restore => exact List.mem_cons_of_mem _ (List.mem_of_mem_tail hc)
    | _ => exact List.mem_cons_of_mem _ hc

theorem arrays_step (hnew : ∀ size, call ≠ .newArray size) :
    (h.step call).now.arrays = h.now.arrays := by
  unfold step
  split
  · split <;> rfl
  · split <;> exact Client.arrays_settle hnew

theorem liveStacks_step (hnew : call ≠ .newStack) (hfree : ∀ s, call ≠ .freeStack s) :
    (h.step call).now.liveStacks = h.now.liveStacks := by
  unfold step
  split
  · split <;> rfl
  · split <;> exact Client.liveStacks_settle hnew hfree

theorem arrays_subset_step : h.now.arrays ⊆ (h.step call).now.arrays := by
  unfold step
  split
  · split <;> exact List.Subset.refl _
  · split <;> exact Client.arrays_subset_settle

end Step

/-- The histories of a client that starts with a fresh arena. -/
inductive Run (extra : Prop) (limit : Nat) : History → Prop where
  | start : Run extra limit (.start limit)
  | call {h : History} {call : Arena.Call} (run : Run extra limit h) (may : call.May extra h) :
      Run extra limit (h.step call)

end History

end BankedMemory
