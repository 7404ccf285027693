import BankedMemory.Proofs.Checkpoint.OpenLevels
import BankedMemory.Proofs.Client.Runs

/-!
# What a restore gives back

`restore` fails only when no level is open. Otherwise `restore_reclaims` says which rows are live
afterwards: those that were live before the save and not the client's, those that are the client's
now, and the save stack. All that the level itself took is free again.
-/

namespace BankedMemory

variable {extra : Prop} {terms : Terms} {limit : Nat} {h : History} {l l' : Ledger}
  {log : Nat → List Record} {b : Arena} {saved : Client} {outer : List Client}

/-- Closing the level whose save left the client at `saved` gives back what the level took. -/
structure Reclaims (h : History) (saved : Client) (b : Arena) : Prop where
  length : b.region.length = h.now.arena.region.length
  live : ∀ k, b.Live k ↔ (saved.arena.Live k ∧ ¬saved.Owns k) ∨ h.now.Owns k ∨
    ∃ segs, b.chain b.saveStack.handle = .ok segs ∧ k ∈ segs
  /-- The copies of the level and the segments of its stack of records. -/
  freed : ∃ levels, h.now.arena.Keeps levels ∧ ∃ top ∈ levels.getLast?,
    (∀ r ∈ top.records, r.copy ∈ b.freed) ∧
    ∃ segs, h.now.arena.chain top.level.records = .ok segs ∧ ∀ k ∈ segs, k ∈ b.freed

namespace Closed

variable (hc : Closed h l log outer.length b l') (hA : Account terms h l log)

include hc hA

/-- Everything the level held is free. -/
theorem mem_freed {k : Handle}
    (hk : k ∈ l.held (.records outer.length) ∨ k ∈ l.held (.copies outer.length)) : k ∈ b.freed := by
  obtain ⟨o, ho, hko⟩ : ∃ o : Owner, (o = .records outer.length ∨ o = .copies outer.length) ∧
      k ∈ l.held o := by
    rcases hk with hk | hk
    · exact ⟨_, .inl rfl, hk⟩
    · exact ⟨_, .inr rfl, hk⟩
  rw [hc.describes.sound.mem_freed_iff]
  refine ⟨?_, fun hlive => ?_⟩
  · rw [hc.change.size]
    exact Arena.toNat_lt_size (hA.describes.live_of_mem hko)
  · rcases (hc.describes.live k).mp hlive with h0 | ⟨p, hp⟩
    · exact hA.describes.ne_zero hko h0
    · by_cases hrecords : p = .records outer.length
      · rw [hrecords, hc.records] at hp
        cases hp
      · by_cases hcopies : p = .copies outer.length
        · rw [hcopies, hc.copies] at hp
          cases hp
        · rw [hc.held p hrecords hcopies] at hp
          cases hA.describes.unique hp hko
          exact ho.elim hrecords hcopies

/-- A row is live afterwards if it is the client's, on the save stack, or held for a level below. -/
theorem live_iff (hp : h.past = saved :: outer) (hbase : terms.base ≤ outer.length) (k : Handle) :
    b.Live k ↔ (k = 0 ∨ ∃ j < outer.length, k ∈ l.held (.records j) ∨ k ∈ l.held (.copies j)) ∨
      h.now.Owns k ∨ k ∈ l.held .saves := by
  have hafter := hc.holdings hA.toHoldings hp hbase
  have hheld : ∀ {p : Owner}, p ≠ .records outer.length → p ≠ .copies outer.length →
      k ∈ l.held p → b.Live k := fun h1 h2 hk =>
    hc.describes.live_of_mem (o := _) (by rw [hc.held _ h1 h2]; exact hk)
  rw [hA.owns_iff]
  constructor
  · intro hlive
    rcases (hc.describes.live k).mp hlive with h0 | ⟨p, hk⟩
    · exact .inl (.inl h0)
    · cases p with
      | array =>
        rw [hc.held _ (by simp) (by simp)] at hk
        exact .inr (.inl (.inl hk))
      | stack s =>
        rw [hc.held _ (by simp) (by simp)] at hk
        exact .inr (.inl (.inr ⟨s, hk⟩))
      | saves =>
        rw [hc.held _ (by simp) (by simp)] at hk
        exact .inr (.inr hk)
      | records j =>
        have hj : j < outer.length := Decidable.byContradiction fun hge => by
          rw [(hafter.closed j (Nat.le_of_not_lt hge)).1] at hk
          cases hk
        rw [hc.held _ (by simpa using Nat.ne_of_lt hj) (by simp)] at hk
        exact .inl (.inr ⟨j, hj, .inl hk⟩)
      | copies j =>
        have hj : j < outer.length := Decidable.byContradiction fun hge => by
          rw [hafter.copies, (hafter.closed j (Nat.le_of_not_lt hge)).2] at hk
          cases hk
        rw [hc.held _ (by simp) (by simpa using Nat.ne_of_lt hj)] at hk
        exact .inl (.inr ⟨j, hj, .inr hk⟩)
  · rintro ((h0 | ⟨j, hj, hk | hk⟩) | (hk | ⟨s, hk⟩) | hk)
    · exact (hc.describes.live k).mpr (.inl h0)
    · exact hheld (by simpa using Nat.ne_of_lt hj) (by simp) hk
    · exact hheld (by simp) (by simpa using Nat.ne_of_lt hj) hk
    · exact hheld (by simp) (by simp) hk
    · exact hheld (by simp) (by simp) hk
    · exact hheld (by simp) (by simp) hk

/-- The same, seen from the save the level began with. -/
theorem reclaims (hwide : ¬terms.wide) (hp : h.past = saved :: outer) : Reclaims h saved b where
  length := hc.change.length
  live k := by
    have hbase : terms.base ≤ outer.length := by
      rw [Terms.base_eq_zero (.inr hwide)]
      exact Nat.zero_le _
    have hafter := hc.holdings hA.toHoldings hp hbase
    have hinner := innermost hp
    have hsaves : l'.held .saves = l.held .saves := hc.held _ (by simp) (by simp)
    have hne : l'.held .saves ≠ [] := by
      rw [hsaves]
      exact hA.saves_ne_nil (by rw [hp]; exact Nat.succ_pos _)
    have hchain : b.chain b.saveStack.handle = .ok (l.held .saves) := by
      have hd := hafter.saves_head hne
      rw [← hsaves]
      exact (hc.describes.laid_of_head (o := .saves) trivial hd).chain_eq hc.describes.sound hd
    have hstack : (∃ segs, b.chain b.saveStack.handle = .ok segs ∧ k ∈ segs) ↔ k ∈ l.held .saves := by
      rw [hchain]
      exact ⟨fun ⟨_, heq, hk⟩ => by cases heq; exact hk, fun hk => ⟨_, rfl, hk⟩⟩
    rw [hc.live_iff hA hp hbase, hstack]
    by_cases hk : k ∈ l.held .saves
    · simp [hk]
    · rw [(hA.enclosed hwide).spared saved outer hinner k hk]
  freed := by
    have hlen : h.past.length = outer.length + 1 := by rw [hp, List.length_cons]
    have hd := hA.records_head (k := outer.length) (by omega)
    refine ⟨_, hA.keeps, l.openLevel log outer.length, ?_, ?_, l.held (.records outer.length), ?_, ?_⟩
    · rw [hlen, Ledger.getLast?_openLevels]
      rfl
    · exact fun r hr => hc.mem_freed hA (.inr (hA.mem_copies hr))
    · exact (hA.describes.laid_of_head (o := .records outer.length)
        (s := ⟨(l.openLevel log outer.length).level.records⟩) trivial hd).chain_eq
        hA.describes.sound hd
    · exact fun k hk => hc.mem_freed hA (.inl hk)

end Closed

/-- With no level open `restore` refuses; with one open it succeeds and gives back what the level
took. -/
theorem restore_reclaims (hr : h.Run extra limit) :
    (∃ n, h.now.arena.depth = .ok n ∧ n.toNat = h.past.length) ∧
    (h.past = [] → ∃ f, Arena.restore h.now.arena = .error f h.now.arena ∧
      f.report.condition = .invalidRestore) ∧
    ∀ saved outer, h.past = saved :: outer →
      ∃ b, Arena.restore h.now.arena = .ok () b ∧ Reclaims h saved b := by
  obtain ⟨l, log, hA⟩ := hr.account
  refine ⟨⟨_, hA.depth_eq, hA.toNat_depth⟩, fun hp => ⟨_, hA.restore_nothing hp, rfl⟩, ?_⟩
  intro saved outer hp
  obtain ⟨b, l', hrun, hc⟩ := hA.restore_spec hp (Nat.zero_le _)
  exact ⟨b, hrun, hc.reclaims hA id hp⟩

/-- The one record of the level has its copy in row 4, and row 3 is its stack of records. -/
theorem restore_reclaims_arrayStored : ∃ saved b,
    History.arrayStored.now.arena.Keeps [⟨⟨1, 3⟩, [⟨1, 4⟩]⟩] ∧
      Arena.restore History.arrayStored.now.arena = .ok () b ∧
      Reclaims History.arrayStored saved b ∧ 4 ∈ b.freed ∧ 3 ∈ b.freed := by
  obtain ⟨saved, hpast, -⟩ := History.past_arraySaved
  have hp : History.arrayStored.past = [saved] := History.past_arrayStored.trans hpast
  have hr : History.arrayStored.Run False 1000 := History.run_arrayStored
  obtain ⟨b, hrun, hreclaims⟩ := (restore_reclaims hr).2.2 _ _ hp
  obtain ⟨levels, hkeeps, top, htop, hcopies, segs, hchain, hsegs⟩ := hreclaims.freed
  cases hkeeps.unique History.keeps_arrayStored
  cases htop
  obtain ⟨-, -, -, hthree, -⟩ := History.arena_arrayStored
  cases hthree.symm.trans hchain
  exact ⟨saved, b, hkeeps, hrun, hreclaims, hcopies ⟨1, 4⟩ (List.mem_singleton_self _),
    hsegs 3 (List.mem_singleton_self _)⟩

end BankedMemory
