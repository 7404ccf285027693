import BankedMemory.Proofs.Checkpoint.Account

/-!
# Calls that leave the arrays alone

Most calls touch the segments of stacks and nothing else. `Account.reframe` carries the account over
such a call; the calls on the client's own stacks and the making of the save stack are cases of it.
-/

namespace BankedMemory

variable {terms : Terms} {base : Nat} {h : History} {l l' : Ledger} {log : Nat → List Record}
  {a b : Arena} {k : Nat} {e : Handle} {s : Stack} {own : List Stack} {rows : List Handle}
  {vals : List Object} {F : Set Handle}

/-- Every array of the client shows what it showed. -/
def Client.ArraysKept (c : Client) (b : Arena) : Prop :=
  ∀ e ∈ c.entities, ∀ i o, c.arena.Shows e i o → b.Shows e i o

theorem Client.ArraysKept.refl (c : Client) : c.ArraysKept c.arena := fun _ _ _ _ ho => ho

theorem Client.arraysKept_of_cell {c : Client} (hcell : ∀ e ∈ c.entities, b.cell e = c.arena.cell e) :
    c.ArraysKept b := fun e he _ _ ho => ho.of_shown (Arena.shown_congr (hcell e he))

/-- Memory is kept when the places it is in show what they showed. -/
theorem Memory.transport (hm : Memory base h log) (hh : Holdings base h l log)
    (hsame : ∀ e ∈ h.now.entities, ∀ k, b.shown (origin (since log k h.past.length) e) =
      h.now.arena.shown (origin (since log k h.past.length) e))
    (hbelow : ∀ k, b.stamp k ≤ h.past.length) (own : List Stack) :
    Memory base ⟨⟨b, h.now.arrays, own⟩, h.past⟩ log where
  readable := by
    intro k hbase hk v hv i hi
    obtain ⟨o, ho⟩ := hm.readable k hbase hk v hv i hi
    exact ⟨o, ho.of_shown (hsame _ (Client.mem_entities hv (size_ne_zero hi)) k)⟩
  kept := by
    intro c outer hs hbase v hv i hi
    obtain ⟨o, hread, ho⟩ := hm.kept c outer hs hbase v hv i hi
    have hv' := (hh.arrays_suffix hs).subset hv
    exact ⟨o, hread, ho.of_shown (hsame _ (Client.mem_entities hv' (size_ne_zero hi)) _)⟩
  stamped := by
    intro c outer hs hbase e he
    have := hm.stamped c outer hs hbase e he
    rwa [← Arena.stamp_of_shown (hsame e he _)] at this
  below := hbelow

/-- No stamp is above the current level if the rows that are no segments have the stamps they
had. -/
theorem Memory.stamp_le (hm : Memory base h log) (hl : l'.Describes b)
    (hcell : ∀ k, b.Live k → (∃ o : Owner, o.IsStack ∧ k ∈ l'.held o) ∨
      b.cell k = h.now.arena.cell k) (k : Handle) : b.stamp k ≤ h.past.length := by
  cases hc : b.cell k with
  | none =>
    rw [Arena.stamp_of_none hc]
    exact Nat.zero_le _
  | some x =>
    rcases hcell k (Arena.live_iff_cell.mpr ⟨x, hc⟩) with ⟨o, ho, hk⟩ | hsame
    · rw [hl.stamp_of_segment ho hk]
      exact Nat.zero_le _
    · rw [Arena.stamp_of_shown (Arena.shown_congr hsame)]
      exact hm.below k

/-- Arrays and copies live in rows that hold no segments. -/
theorem Holdings.not_segment (hh : Holdings base h l log) (hl : l'.Describes b)
    (harray : l'.held .array = l.held .array)
    (hcopies : ∀ k, l'.held (.copies k) = l.held (.copies k)) (he : e ∈ h.now.entities) (k n : Nat) :
    b.Live (origin (since log k n) e) ∧
      ∀ o : Owner, o.IsStack → origin (since log k n) e ∉ l'.held o := by
  obtain ⟨p, hp, hmem⟩ : ∃ p : Owner, ¬p.IsStack ∧ origin (since log k n) e ∈ l'.held p := by
    rcases origin_since_cases log k n e with hself | ⟨j, r, hr, -, hcopy⟩
    · refine ⟨.array, id, ?_⟩
      rwa [hself, harray, hh.array]
    · refine ⟨.copies j, id, ?_⟩
      rw [hcopy, hcopies]
      exact hh.mem_copies hr
  exact ⟨hl.live_of_mem hmem, fun o ho => hl.not_mem_of_ne hmem fun heq => hp (heq ▸ ho)⟩

/-- What the levels hold is as it was, and the save stack has only grown. -/
theorem Enclosed.held (he : Enclosed h l log) (hgrow : ∀ k ∈ l.held .saves, k ∈ l'.held .saves)
    (hrecords : ∀ k, l'.held (.records k) = l.held (.records k))
    (hcopies : ∀ k, l'.held (.copies k) = l.held (.copies k)) {now : Client} :
    Enclosed ⟨now, h.past⟩ l' log where
  within := he.within
  spared c outer hs k hk := by
    simp only [hrecords, hcopies]
    exact he.spared c outer hs k fun hk' => hk (hgrow k hk')

theorem Account.reframe (hA : Account terms h l log) (hl : l'.Describes b)
    (hheld : ∀ o : Owner, (∀ s, o ≠ .stack s) → o ≠ .saves → l'.held o = l.held o)
    (hvalues : ∀ k, l'.values (.records k) = l.values (.records k))
    (hlevels : l'.values .saves = l.values .saves)
    (hcell : ∀ k, b.Live k → (∃ o : Owner, o.IsStack ∧ k ∈ l'.held o) ∨
      b.cell k = h.now.arena.cell k)
    (hstack : ∀ s ∈ own, (l'.held (.stack s)).head? = some s.handle)
    (hstackless : ∀ s, s ∉ own → l'.held (.stack s) = []) (hnodup : own.Nodup)
    (hsaves : b.saves = (l'.held .saves).head?)
    (hgrow : ∀ k ∈ l.held .saves, k ∈ l'.held .saves) :
    Account terms ⟨⟨b, h.now.arrays, own⟩, h.past⟩ l' log := by
  have harray : l'.held .array = l.held .array := hheld _ (by simp) (by simp)
  have hcopies : ∀ k, l'.held (.copies k) = l.held (.copies k) := fun k =>
    hheld _ (by simp) (by simp)
  have hrecords : ∀ k, l'.held (.records k) = l.held (.records k) := fun k =>
    hheld _ (by simp) (by simp)
  have hlevel : l'.level = l.level := funext fun k => by unfold Ledger.level; rw [hrecords]
  have hplain : ∀ k, b.Live k → (∀ o : Owner, o.IsStack → k ∉ l'.held o) →
      b.cell k = h.now.arena.cell k := fun k hlive hnot => by
    rcases hcell k hlive with ⟨o, ho, hk⟩ | hc
    · exact absurd hk (hnot o ho)
    · exact hc
  have hsame : ∀ e ∈ h.now.entities, ∀ k, b.shown (origin (since log k h.past.length) e) =
      h.now.arena.shown (origin (since log k h.past.length) e) := fun e he k => by
    obtain ⟨hlive, hnot⟩ := hA.not_segment hl harray hcopies he k h.past.length
    exact Arena.shown_congr (hplain _ hlive hnot)
  exact
    { describes := hl
      array := harray.trans hA.array
      root := hA.root
      stack := hstack
      stackless := hstackless
      liveStacks_nodup := hnodup
      saves := hsaves
      saveless := fun hnil => hA.saveless (List.eq_nil_iff_forall_not_mem.mpr fun k hk => by
        have hmem := hgrow k hk
        rw [hnil] at hmem
        cases hmem)
      depth_le := hA.depth_le
      levels := by
        rw [hlevels, hlevel]
        exact hA.levels
      opened := fun k hk => by
        rw [hrecords, hvalues]
        exact hA.opened k hk
      closed := fun k hk => by
        rw [hrecords]
        exact hA.closed k hk
      copies := fun k => (hcopies k).trans (hA.copies k)
      older := hA.older
      base_le := hA.base_le
      abandoned := hA.abandoned
      source := hA.source
      toMemory := hA.toMemory.transport hA.toHoldings hsame (hA.stamp_le hl hcell) _
      enclosed := fun hwide => (hA.enclosed hwide).held hgrow hrecords hcopies
      once := hA.once
      sourced := hA.sourced
      unstamped := fun hextra => by
        have hc := hplain 0 hl.sound.live_zero fun o _ => hl.zero o
        rw [Arena.stamp_of_shown (Arena.shown_congr hc)]
        exact hA.unstamped hextra }

/-- A call after which every live row shows what it showed. -/
theorem Account.quiet (hA : Account terms h l log) (hl : l.Describes b)
    (hcell : ∀ k, b.Live k → (∃ o : Owner, o.IsStack ∧ k ∈ l.held o) ∨
      b.cell k = h.now.arena.cell k)
    (hsaves : b.saves = h.now.arena.saves) :
    Account terms ⟨⟨b, h.now.arrays, h.now.liveStacks⟩, h.past⟩ l log :=
  hA.reframe hl (fun _ _ _ => rfl) (fun _ => rfl) rfl hcell hA.stack hA.stackless hA.liveStacks_nodup
    (hsaves.trans hA.saves) fun _ hk => hk

/-- A call on a stack of the client's touches the segments it has then, and those it gave back. -/
theorem Account.stack_call (hA : Account terms h l log)
    (hl : (l.set (.stack s) rows vals).Describes b) (t : Arena.Touches F h.now.arena b)
    (hF : ∀ k ∈ F, b.Live k → k ∈ rows)
    (hs : s ∈ own → rows.head? = some s.handle) (hgone : s ∉ own → rows = [])
    (hother : ∀ p, p ≠ s → (p ∈ own ↔ p ∈ h.now.liveStacks)) (hnodup : own.Nodup) :
    Account terms ⟨⟨b, h.now.arrays, own⟩, h.past⟩ (l.set (.stack s) rows vals) log ∧
      h.now.ArraysKept b := by
  refine ⟨hA.reframe hl (fun o ho _ => Ledger.held_set_ne (ho s))
    (fun k => Ledger.values_set_ne (by simp)) (Ledger.values_set_ne (by simp)) ?_ ?_ ?_ hnodup ?_ ?_,
    Client.arraysKept_of_cell fun e he => t.cell e fun hk => ?_⟩
  · intro k hlive
    by_cases hk : k ∈ F
    · exact .inl ⟨.stack s, trivial, by rw [Ledger.held_set_self]; exact hF k hk hlive⟩
    · exact .inr (t.cell k hk)
  · intro p hp
    rcases eq_or_ne p s with rfl | hne
    · rw [Ledger.held_set_self]
      exact hs hp
    · rw [Ledger.held_set_ne (by simpa using hne)]
      exact hA.stack p ((hother p hne).mp hp)
  · intro p hp
    rcases eq_or_ne p s with rfl | hne
    · rw [Ledger.held_set_self]
      exact hgone hp
    · rw [Ledger.held_set_ne (by simpa using hne)]
      exact hA.stackless p fun hp' => hp ((hother p hne).mpr hp')
  · rw [Ledger.held_set_ne (by simp), t.saves]
    exact hA.saves
  · intro k hk
    rwa [Ledger.held_set_ne (by simp)]
  · have he' : e ∈ (l.set (.stack s) rows vals).held .array := by
      rw [Ledger.held_set_ne (by simp), hA.array]
      exact he
    refine hl.not_mem_of_ne (p := .stack s) he' (by simp) ?_
    rw [Ledger.held_set_self]
    exact hF e hk (hl.live_of_mem he')

end BankedMemory
