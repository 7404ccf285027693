import BankedMemory.Proofs.Checkpoint.Quiet

/-!
# Calls on the client's stacks

What each call on a stack of the client does to its values, and that it keeps the account. No other
stack changes its values, since the ledger changes for one owner only.
-/

namespace BankedMemory

variable {terms : Terms} {base : Nat} {h : History} {l : Ledger} {log : Nat → List Record}
  {b : Arena} {s : Stack} {o : Object} {vals : List Object} {i : Nat}

namespace Holdings

theorem laid_stack (hh : Holdings base h l log) (hs : s ∈ h.now.liveStacks) :
    h.now.arena.Laid (l.held (.stack s)) (l.values (.stack s)) :=
  hh.describes.laid_of_head trivial (hh.stack s hs)

/-- Reading a stack gives its values. -/
theorem toList_eq (hh : Holdings base h l log) (hs : s ∈ h.now.liveStacks) :
    s.toList h.now.arena = .ok (l.values (.stack s)) :=
  (hh.laid_stack hs).toList_eq hh.describes.sound (hh.stack s hs)

end Holdings

namespace Account

/-- The values of a stack are changed within its segments. -/
theorem revalue (hA : Account terms h l log) (hs : s ∈ h.now.liveStacks)
    (t : Arena.Touches {k | k ∈ l.held (.stack s)} h.now.arena b)
    (hlaid : b.Laid (l.held (.stack s)) vals) :
    Account terms ⟨⟨b, h.now.arrays, h.now.liveStacks⟩, h.past⟩
      (l.set (.stack s) (l.held (.stack s)) vals) log ∧ h.now.ArraysKept b :=
  hA.stack_call (hA.describes.revalue t hlaid) t (fun _ hk _ => hk) (fun _ => hA.stack s hs)
    (fun hnot => absurd hs hnot) (fun _ _ => Iff.rfl) hA.liveStacks_nodup

theorem newStack_call (hA : Account terms h l log) :
    (∃ k b, Stack.new h.now.arena = .ok ⟨k⟩ b ∧ (⟨k⟩ : Stack) ∉ h.now.liveStacks ∧
      Account terms ⟨⟨b, h.now.arrays, ⟨k⟩ :: h.now.liveStacks⟩, h.past⟩
        (l.set (.stack ⟨k⟩) [k] []) log ∧ h.now.ArraysKept b) ∨
    ∃ f, Stack.new h.now.arena = .error f h.now.arena ∧ h.now.arena.OutOfStorage f := by
  rcases Arena.newStack_spec hA.describes.sound with ⟨k, b, hrun, -, hdead, t, hlaid⟩ | hfail
  · left
    have hnew : (⟨k⟩ : Stack) ∉ h.now.liveStacks := fun hmem => by
      have hhead := hA.stack _ hmem
      exact hA.describes.not_mem_of_none hdead _ (List.mem_of_head? hhead)
    have hempty := hA.stackless _ hnew
    have hl : (l.set (.stack ⟨k⟩) [k] []).Describes b := by
      refine hA.describes.relaid t ?_ ?_ ?_ hlaid
      · rintro j rfl
        exact List.mem_singleton_self j
      · intro j hj
        rw [hempty] at hj
        cases hj
      · intro j hj
        rw [List.mem_singleton] at hj
        exact .inr (hj ▸ hdead)
    refine ⟨k, b, hrun, hnew, hA.stack_call hl t ?_ (fun _ => rfl) ?_ ?_ ?_⟩
    · rintro j rfl -
      exact List.mem_singleton_self j
    · exact fun hnot => absurd List.mem_cons_self hnot
    · intro p hp
      rw [List.mem_cons]
      exact ⟨fun hmem => hmem.resolve_left hp, .inr⟩
    · exact List.nodup_cons.mpr ⟨hnew, hA.liveStacks_nodup⟩
  · exact .inr hfail

theorem push_call (hA : Account terms h l log) (hs : s ∈ h.now.liveStacks) (o : Object) :
    (∃ rows b, s.push o h.now.arena = .ok () b ∧
      (rows = l.held (.stack s) ∨ (l.values (.stack s)).length + 1 =
          segmentSize * (l.held (.stack s)).length ∧ ∃ new, rows = l.held (.stack s) ++ [new]) ∧
      Account terms ⟨⟨b, h.now.arrays, h.now.liveStacks⟩, h.past⟩
        (l.set (.stack s) rows (l.values (.stack s) ++ [o])) log ∧ h.now.ArraysKept b) ∨
    ∃ f, s.push o h.now.arena = .error f h.now.arena ∧ h.now.arena.OutOfStorage f ∧
      (l.values (.stack s)).length % segmentSize + 1 = segmentSize ∧
      (l.held (.stack s))[(l.values (.stack s)).length / segmentSize + 1]? = none ∧
      Arena.allocate segmentBytes .stack h.now.arena = .error f h.now.arena := by
  rcases hA.describes.push_spec (o := .stack s) trivial (hA.stack s hs) o with
    ⟨rows, b, hrun, hhead, -, hrows, t, hl⟩ | hfail
  · exact .inl ⟨rows, b, hrun, hrows, hA.stack_call hl t (fun _ hk _ => hk) (fun _ => hhead)
      (fun hnot => absurd hs hnot) (fun _ _ => Iff.rfl) hA.liveStacks_nodup⟩
  · exact .inr hfail

theorem pop_call (hA : Account terms h l log) (hs : s ∈ h.now.liveStacks)
    (hvals : l.values (.stack s) = vals ++ [o]) :
    ∃ b, s.pop h.now.arena = .ok o b ∧
      Account terms ⟨⟨b, h.now.arrays, h.now.liveStacks⟩, h.past⟩
        (l.set (.stack s) (l.held (.stack s)) vals) log ∧ h.now.ArraysKept b := by
  have hlaid := hA.laid_stack hs
  rw [hvals] at hlaid
  obtain ⟨b, hrun, hr, hlb⟩ := hlaid.pop_spec hA.describes.sound (hA.stack s hs)
  exact ⟨b, hrun, hA.revalue hs hr.toTouches hlb⟩

theorem setBottom_call (hA : Account terms h l log) (hs : s ∈ h.now.liveStacks)
    (hi : i < (l.values (.stack s)).length) (o : Object) :
    ∃ b, s.setBottom i o h.now.arena = .ok () b ∧
      Account terms ⟨⟨b, h.now.arrays, h.now.liveStacks⟩, h.past⟩
        (l.set (.stack s) (l.held (.stack s)) ((l.values (.stack s)).set i o)) log ∧
      h.now.ArraysKept b := by
  obtain ⟨b, hrun, hr, hlb⟩ :=
    (hA.laid_stack hs).setBottom_spec hA.describes.sound (hA.stack s hs) hi o
  exact ⟨b, hrun, hA.revalue hs hr.toTouches hlb⟩

theorem setTop_call (hA : Account terms h l log) (hs : s ∈ h.now.liveStacks)
    (hi : i < (l.values (.stack s)).length) (o : Object) :
    ∃ b, s.setTop i o h.now.arena = .ok () b ∧
      Account terms ⟨⟨b, h.now.arrays, h.now.liveStacks⟩, h.past⟩
        (l.set (.stack s) (l.held (.stack s))
          ((l.values (.stack s)).set ((l.values (.stack s)).length - 1 - i) o)) log ∧
      h.now.ArraysKept b := by
  obtain ⟨b, hrun, hr, hlb⟩ :=
    (hA.laid_stack hs).setTop_spec hA.describes.sound (hA.stack s hs) hi o
  exact ⟨b, hrun, hA.revalue hs hr.toTouches hlb⟩

theorem freeStack_call (hA : Account terms h l log) (hs : s ∈ h.now.liveStacks) :
    ∃ b, s.free h.now.arena = .ok () b ∧
      Account terms ⟨⟨b, h.now.arrays, h.now.liveStacks.erase s⟩, h.past⟩
        (l.set (.stack s) [] []) log ∧ h.now.ArraysKept b := by
  obtain ⟨b, hrun, hr, hdead⟩ := (hA.laid_stack hs).free_spec hA.describes.sound (hA.stack s hs)
  have hgone : s ∉ h.now.liveStacks.erase s := fun hmem =>
    (hA.liveStacks_nodup.mem_erase_iff.mp hmem).1 rfl
  refine ⟨b, hrun, hA.stack_call (hA.describes.dropped hr.toTouches hdead) hr.toTouches ?_
    (fun hmem => absurd hmem hgone) (fun _ => rfl) ?_ (hA.liveStacks_nodup.erase s)⟩
  · intro k hk hlive
    exact absurd hlive (Arena.cell_eq_none_iff.mp (hdead k hk))
  · intro p hp
    rw [hA.liveStacks_nodup.mem_erase_iff]
    exact ⟨fun hmem => hmem.2, fun hmem => ⟨hp, hmem⟩⟩

end Account

end BankedMemory
