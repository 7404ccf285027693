import BankedMemory.Proofs.Arena.Calls
import BankedMemory.Proofs.Checkpoint.Freeing

/-!
# A restore that fails

A restore takes the level off the save stack first and checks what it finds as it goes. As long as
the records of the level can all be undone it does everything or nothing, in every arena that calls
lead to (`restore_all_or_nothing`), and they can as long as the client keeps to its own arrays and
stacks (`History.Run.levelIntact`). One value pushed onto the stack of records by its handle is
enough for a restore that fails and leaves the arena with a level less (`restore_loses_level`).
-/

namespace BankedMemory

open Arena (Call Reachable)

variable {extra : Prop} {limit : Nat} {h : History} {a : Arena}

/-! ## Arenas of a client -/

theorem History.reachable_step (reached : Reachable limit h.now.arena) (call : Call) :
    Reachable limit (h.step call).now.arena := by
  have hnext := reached.call call
  cases hrun : call.run h.now.arena with
  | ok reply b => rwa [now_step_of_ok hrun, Client.arena_settle, ← ArenaM.after_of_ok hrun]
  | error f b =>
    by_cases hstop : f.stops
    · rwa [step_of_stop hrun hstop]
    · rwa [step_of_error hrun hstop, ← ArenaM.after_of_error hrun]

theorem History.Run.reachable (hr : h.Run extra limit) : Reachable limit h.now.arena := by
  induction hr with
  | start => exact .fresh
  | call _ _ ih => exact History.reachable_step ih _

/-- The level a client opened last is intact, whatever calls it makes. -/
theorem History.Run.levelIntact {saved : Client} {outer : List Client} (hr : h.Run extra limit)
    (hp : h.past = saved :: outer) : h.now.arena.LevelIntact := by
  obtain ⟨l, log, hA⟩ := hr.account
  exact hA.levelIntact hp (Nat.zero_le _)

/-! ## All or nothing -/

/-- In whatever arena calls lead to: if a level is open and intact, a restore succeeds and closes
it. If none is open, or the levels cannot be counted, it fails and leaves the arena as it was. -/
theorem restore_all_or_nothing (reached : Reachable limit a)
    (intact : ∀ d, a.depth = .ok d → d ≠ 0 → a.LevelIntact) :
    (∃ d b, a.depth = .ok d ∧ d ≠ 0 ∧ Arena.restore a = .ok () b ∧ b.depth = .ok (d - 1)) ∨
      ∃ f, Arena.restore a = .error f a ∧
        (a.depth = .error f ∨ a.depth = .ok 0 ∧ f = .nothingSaved) := by
  cases hdepth : a.depth with
  | error f => exact .inr ⟨f, Arena.restore_uncounted hdepth, .inl rfl⟩
  | ok d =>
    by_cases hd : d = 0
    · subst hd
      exact .inr ⟨_, Arena.restore_unsaved hdepth, .inr ⟨rfl, rfl⟩⟩
    · obtain ⟨saves, below, level, segs, rs, hl, hlevel, hu⟩ := intact d hdepth hd
      obtain ⟨b, hrun, hb⟩ := hl.restore_ok reached.reach.2 hlevel hu hdepth hd
      exact .inl ⟨d, b, rfl, hd, hrun, hb⟩

/-- A client stored to an array in its one level. -/
theorem restore_all_or_nothing_arrayStored :
    Reachable 1000 History.arrayStored.now.arena ∧ History.arrayStored.now.arena.LevelIntact ∧
      ∃ b, Arena.restore History.arrayStored.now.arena = .ok () b ∧ b.depth = .ok 0 := by
  have hrun : History.arrayStored.Run False 1000 := History.run_arrayStored
  obtain ⟨saved, hpast, -⟩ := History.past_arraySaved
  have hintact := hrun.levelIntact (History.past_arrayStored.trans hpast)
  refine ⟨hrun.reachable, hintact, ?_⟩
  have hdepth := History.arena_arrayStored.1
  rcases restore_all_or_nothing hrun.reachable fun _ _ _ => hintact with
    ⟨d, b, hd, -, hrestore, hb⟩ | ⟨f, -, hf | ⟨hzero, -⟩⟩
  · cases hdepth.symm.trans hd
    exact ⟨b, hrestore, hb⟩
  · cases hdepth.symm.trans hf
  · cases hdepth.symm.trans hzero

/-- A number is pushed onto the stack of records of the one level open. -/
theorem restore_loses_level : ∃ a b r f, Reachable 1000 a ∧ a.depth = .ok 1 ∧
    a.saveStack.top 0 a = .ok (.save ⟨1, r⟩) ∧ (∃ segs, a.chain a.saveStack.handle = .ok segs) ∧
      (∃ segs, a.chain r = .ok segs) ∧ Arena.restore a = .error f b ∧ b.depth = .ok 0 := by
  have hrun : History.arraySaved.Run False 1000 := History.run_arraySaved
  obtain ⟨l, hA⟩ := account_arraySaved
  obtain ⟨saved, hpast, -⟩ := History.past_arraySaved
  obtain ⟨a, hpush, hs, hl⟩ := (hA.latest hpast).push hA.describes.sound (.integer 0) (by decide)
  have hreach := hrun.reachable.call (.push ⟨(l.held (.records 0)).headD 0⟩ (.integer 0))
  have hafter : (Call.push ⟨(l.held (.records 0)).headD 0⟩ (.integer 0)).run.after
      History.arraySaved.now.arena = a := ArenaM.after_of_ok (EStateM.bind_of_ok hpush)
  rw [hafter] at hreach
  have hdepth : a.depth = .ok 1 := hl.depth_eq hs
  obtain ⟨f, b, hrestore, hb, -⟩ := hl.restore_spoiled (o := .integer 0) hs nofun hdepth (by decide)
  exact ⟨a, b, _, f, hreach, hdepth, hl.levels.top_eq hs hl.head_saves rfl,
    ⟨_, hl.levels.chain_eq hs hl.head_saves⟩, ⟨_, hl.records.chain_eq hs hl.head⟩, hrestore, hb⟩

end BankedMemory
