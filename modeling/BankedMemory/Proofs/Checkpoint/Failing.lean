import BankedMemory.Proofs.Checkpoint.OpenLevels
import BankedMemory.Proofs.Checkpoint.Snapshot

/-!
# Calls that fail

Storage can run out anywhere inside a call: for a copy, for the next segment of a stack, for the
stack of records of a new level. Each call takes back what it did until then, so a call that gives
an error back leaves everything a client can see as it was: `failed_call_harmless`. What stays is at
most an empty save stack, made for the first save.
-/

namespace BankedMemory

/-- The calls of a client that has any of its arrays recorded, those made since the last save
too. -/
def Arena.Call.MayRecord (h : History) : Arena.Call → Prop
  | .preserve _ k => ∃ v ∈ h.now.arrays, v.ent = k
  | call => call.May False h

/-- The histories of such a client. -/
inductive History.RecordingRun (limit : Nat) : History → Prop where
  | start : RecordingRun limit (.start limit)
  | call {h : History} {call : Arena.Call} (run : RecordingRun limit h) (may : call.MayRecord h) :
      RecordingRun limit (h.step call)

/-- All that was there before a call is there after it and shows what it showed. -/
structure Unharmed (h : History) (b : Arena) : Prop where
  bytes : ∀ k, h.now.arena.Live k → b.Live k ∧ b.contents k = h.now.arena.contents k
  mark : ∀ k e, h.now.arena.entry k = .ok e → ∃ f, b.entry k = .ok f ∧ f.mark = e.mark
  element : ∀ v ∈ h.now.arrays, ∀ w,
    Object.WindowOf (.composite .array v) (.composite .array w) → Arena.SameElements w h.now.arena b
  stack : ∀ s ∈ h.now.liveStacks, ∃ vals, s.toList h.now.arena = .ok vals ∧ s.toList b = .ok vals
  levels : ∃ levels, h.now.arena.Keeps levels ∧ b.Keeps levels

/-- There is a save stack `s` now where there was none, and it is empty. -/
structure FirstSave (h : History) (b : Arena) (s : Stack) : Prop where
  before : h.now.arena.saves = none
  after : b.saves = some s.handle
  new : ¬h.now.arena.Live s.handle
  live : ∀ k, b.Live k ↔ k = s.handle ∨ h.now.arena.Live k
  empty : s.toList b = .ok []

variable {terms : Terms} {base limit : Nat} {h : History} {l l' : Ledger}
  {log log' : Nat → List Record} {a b : Arena} {call : Arena.Call} {f : Fault} {F : Set Handle}
  {k : Handle}

namespace Account

theorem step_recording (hA : Account (.wider 0) h l log) (may : call.MayRecord h) :
    Accounted (.wider 0) h l call := by
  cases call with
  | preserve content k =>
    obtain ⟨v, hv, rfl⟩ := may
    exact hA.kept_preserve content trivial (hA.entity_or_zero hv) fun hwide => absurd trivial hwide
  | _ => exact hA.step rfl may

/-- Arrays that show what they showed have the same elements. -/
theorem sameElements_of_kept (hA : Account terms h l log) (hb : b.Sound)
    (hkept : h.now.ArraysKept b) {v w : View} (hv : v ∈ h.now.arrays)
    (hw : Object.WindowOf (.composite .array v) (.composite .array w)) :
    Arena.SameElements w h.now.arena b := by
  obtain ⟨u, heq, hent, hin⟩ := hA.window hv hw
  cases heq
  refine Arena.sameElements_of_slots hin hent fun j hj => ?_
  obtain ⟨o, ho⟩ := hA.shows_now hA.base_le hv hj
  have he := Client.mem_entities hv (size_ne_zero hj)
  exact ⟨o, ho.readSlot hA.describes.sound, (hkept _ he j o ho).readSlot hb⟩

end Account

/-- A row with the same cell is the same row to a client. -/
theorem Arena.same_row (ha : a.Sound) (hb : b.Sound) (hcell : b.cell k = a.cell k) :
    (b.Live k ↔ a.Live k) ∧ b.contents k = a.contents k ∧
      ∀ e, a.entry k = .ok e → ∃ f, b.entry k = .ok f ∧ f.mark = e.mark := by
  refine ⟨?_, ?_, fun e he => ?_⟩
  · rw [live_iff_cell, live_iff_cell, hcell]
  · rw [hb.contents_eq, ha.contents_eq, hcell]
  · have hc := hcell.trans (cell_eq_of_entry he)
    obtain ⟨f, hf, heq⟩ := entry_of_cell hc
    exact ⟨f, hf, (congrArg Cell.mark heq).symm⟩

/-- Nothing has changed, so the ledger is still right. -/
theorem Account.unharmed_of_touches (hA : Account terms h l log)
    (t : Arena.Touches ∅ h.now.arena b) : Unharmed h b := by
  have hs := hA.describes.sound
  have hrow := fun k => Arena.same_row hs t.sound (t.cell k id)
  have hl : l.Describes b := hA.describes.frame t.sound (fun k => (hrow k).1) fun _ _ k _ => t.cell k id
  have hb := hA.toHoldings.touch hl t.saves
  have hkept : h.now.ArraysKept b := Client.arraysKept_of_cell fun e _ => t.cell e id
  exact
    { bytes := fun k hk => ⟨(hrow k).1.mpr hk, (hrow k).2.1⟩
      mark := fun k => (hrow k).2.2
      element := fun v hv w hw => hA.sameElements_of_kept t.sound hkept hv hw
      stack := fun s hs' => ⟨_, hA.toList_eq hs', hb.toList_eq hs'⟩
      levels := ⟨_, hA.keeps, hb.keeps⟩ }

section FirstSave

variable (hA : Account terms h l log) {r : Handle} (hmade : h.now.arena.SavesMade b r)
  (hAb : Account terms ⟨⟨b, h.now.arrays, h.now.liveStacks⟩, h.past⟩ l' log')

include hA hmade

/-- Before the save stack is made no level is open. -/
theorem Account.past_of_savesMade : h.past = [] := by
  refine hA.saveless ?_
  have hsaves := hA.saves
  rw [hmade.before] at hsaves
  exact List.head?_eq_none_iff.mp hsaves.symm

include hAb

theorem Account.firstSave : FirstSave h b ⟨r⟩ := by
  have hp := hA.past_of_savesMade hmade
  have hdead := Arena.cell_eq_none_iff.mp hmade.new
  have hd : (l'.held .saves).head? = some (Stack.mk r).handle := hAb.saves.symm.trans hmade.after
  have hlaid := hAb.describes.laid_of_head (o := .saves) trivial hd
  have hlevels : l'.values .saves = [] := by
    rw [hAb.levels]
    simp only
    rw [hp]
    rfl
  refine ⟨hmade.before, hmade.after, hdead, fun k => ?_, ?_⟩
  · rcases eq_or_ne k r with rfl | hne
    · exact iff_of_true (hAb.describes.live_of_mem (List.mem_of_head? hd)) (.inl rfl)
    · rw [Arena.live_iff_cell, hmade.cell k hne, ← Arena.live_iff_cell]
      exact ⟨.inr, fun hk => hk.resolve_left hne⟩
  · have hlist := hlaid.toList_eq hAb.describes.sound hd
    rwa [hlevels] at hlist

theorem Account.unharmed_of_savesMade
    (hvalues : ∀ s ∈ h.now.liveStacks, l'.values (.stack s) = l.values (.stack s)) :
    Unharmed h b := by
  have hp := hA.past_of_savesMade hmade
  have hne : ∀ {k}, h.now.arena.Live k → k ≠ r := fun hk heq =>
    Arena.cell_eq_none_iff.mp hmade.new (heq ▸ hk)
  have hrow := fun k (hk : h.now.arena.Live k) =>
    Arena.same_row hA.describes.sound hAb.describes.sound (hmade.cell k (hne hk))
  have hkept : h.now.ArraysKept b := Client.arraysKept_of_cell fun e he =>
    hmade.cell e (hne (Arena.live_iff_cell.mpr (hA.cell_entity he)))
  refine ⟨fun k hk => ⟨(hrow k hk).1.mpr hk, (hrow k hk).2.1⟩, fun k e he => (hrow k ⟨e, he⟩).2.2 e he,
    fun v hv w hw => hA.sameElements_of_kept hAb.describes.sound hkept hv hw, fun s hs => ?_, [], ?_, ?_⟩
  · have hafter := hAb.toList_eq (s := s) hs
    rw [hvalues s hs] at hafter
    exact ⟨_, hA.toList_eq hs, hafter⟩
  · have hkeeps := hA.keeps
    rwa [hp] at hkeeps
  · have hkeeps := hAb.keeps
    simp only at hkeeps
    rwa [hp] at hkeeps

end FirstSave

theorem History.RecordingRun.account (hr : h.RecordingRun limit) :
    ∃ l log, Account (.wider 0) h l log := by
  induction hr with
  | start => exact ⟨_, _, account_start rfl limit⟩
  | call _ may ih =>
    obtain ⟨l, log, hA⟩ := ih
    obtain ⟨l', log', hkept⟩ := hA.step_recording may
    exact ⟨l', log', hkept.account⟩

/-- A push that fails has not done anything. -/
theorem Account.push_failed (hA : Account terms h l log) {s : Stack} (hs : s ∈ h.now.liveStacks)
    {o : Object} (hfail : (Arena.Call.push s o).run h.now.arena = .error f b) : b = h.now.arena := by
  rcases hA.push_call hs o with ⟨rows, c, hrun, -, -⟩ | ⟨g, hrun, -⟩
  · have hok : (Arena.Call.push s o).run h.now.arena = .ok .done c := EStateM.bind_of_ok hrun
    rw [hfail] at hok
    cases hok
  · have herr : (Arena.Call.push s o).run h.now.arena = .error g h.now.arena :=
      EStateM.bind_of_error hrun
    rw [hfail] at herr
    cases herr
    rfl

/-- A call that gives an error back leaves bytes, marks, elements, stacks and open levels as they
were, and the same handles live. Only the first save, if it fails, may leave the save stack
behind. -/
theorem failed_call_harmless (hr : h.RecordingRun limit) (may : call.MayRecord h)
    (hfail : call.run h.now.arena = .error f b) (hgoes : ¬f.stops) :
    Unharmed h b ∧
      ((∀ k, b.Live k ↔ h.now.arena.Live k) ∨ call = .save ∧ ∃ s, FirstSave h b s) ∧
      ∀ s o, call = .push s o → b = h.now.arena := by
  obtain ⟨l, log, hA⟩ := hr.account
  obtain ⟨l', log', hkept⟩ := hA.step_recording may
  have hpush : ∀ s o, call = .push s o → b = h.now.arena := by
    rintro s o rfl
    exact hA.push_failed may hfail
  rcases hkept.failed f b hfail hgoes with t | ⟨rfl, r, hmade⟩
  · exact ⟨hA.unharmed_of_touches t,
      .inl fun k => (Arena.same_row hA.describes.sound t.sound (t.cell k id)).1, hpush⟩
  · have hAb := hkept.account
    rw [History.step_of_error hfail hgoes] at hAb
    have hvalues : ∀ s ∈ h.now.liveStacks, l'.values (.stack s) = l.values (.stack s) :=
      fun s hs => (hkept.values s hs (by simp [Arena.Call.changed])).2
    exact ⟨hA.unharmed_of_savesMade hmade hAb hvalues, .inr ⟨rfl, ⟨r⟩, hA.firstSave hmade hAb⟩, hpush⟩

/-- There is storage for one element, and another array is asked for. -/
theorem failed_call_harmless_newArray : ∃ b,
    (Arena.Call.newArray 1).run ((History.start 20).step (.newArray 1)).now.arena =
      .error .arenaFull b ∧
    Unharmed ((History.start 20).step (.newArray 1)) b := by
  have hrun : ((History.start 20).step (.newArray 1)).RecordingRun 20 := .call .start trivial
  have hfull : (match (Arena.Call.newArray 1).run ((History.start 20).step (.newArray 1)).now.arena with
      | .ok _ _ => none
      | .error f _ => some f) = some .arenaFull := by decide +kernel
  cases hfail : (Arena.Call.newArray 1).run ((History.start 20).step (.newArray 1)).now.arena with
  | ok _ _ =>
    rw [hfail] at hfull
    cases hfull
  | error f b =>
    rw [hfail] at hfull
    cases hfull
    exact ⟨b, rfl, (failed_call_harmless hrun (by trivial) hfail (by decide)).1⟩

end BankedMemory
