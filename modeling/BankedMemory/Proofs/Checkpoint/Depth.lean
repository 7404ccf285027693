import BankedMemory.Proofs.Checkpoint.OpenLevels
import BankedMemory.Proofs.Client.Runs

/-!
# The depth of the save levels

The depth is counted off the save stack whenever it is asked for; the levels are numbered a second
time in the objects on that stack and a third time, in twelve bits, in the marks. `save_depth_exact`
says that the three agree with the saves and restores there have been.
-/

namespace BankedMemory

namespace History

/-- `n`, and one more if the call is `which` and succeeds. -/
def tally (h : History) (call which : Arena.Call) (n : Nat) : Nat :=
  match call.run h.now.arena with
  | .error _ _ => n
  | .ok _ _ => if call = which then n + 1 else n

/-- The histories of a client, with the numbers of saves and restores that succeeded. -/
inductive Tally (extra : Prop) (limit : Nat) : History → Nat → Nat → Prop where
  | start : Tally extra limit (.start limit) 0 0
  | call {h : History} {saves restores : Nat} {call : Arena.Call}
      (run : Tally extra limit h saves restores) (may : call.May extra h) :
      Tally extra limit (h.step call) (h.tally call .save saves) (h.tally call .restore restores)

end History

/-- The calls that may record an entity. -/
def Arena.Call.Records : Arena.Call → Prop
  | .arrayPut _ _ _ | .preserve _ _ => True
  | _ => False

/-- `d` levels are open, and the arena says so wherever it is asked. -/
structure DepthExact (extra : Prop) (h : History) (d : UInt32) : Prop where
  depth : h.now.arena.depth = .ok d
  depth_le : d ≤ Mark.maxLevel
  counted : h.now.arena.saves ≠ none → h.now.arena.saveStack.count h.now.arena = .ok d.toNat
  /-- The levels on the save stack are numbered from 1 on. -/
  numbered : ∀ k < d.toNat, ∃ level, h.now.arena.saveStack.bottom k h.now.arena = .ok (.save level) ∧
    level.level.toNat = k + 1
  /-- A record goes to the level opened last, and to no other. -/
  recorded : ∀ call : Arena.Call, call.Records → call.May extra h → ∃ levels levels',
    h.now.arena.Keeps levels ∧ (h.step call).now.arena.Keeps levels' ∧
      (levels' = levels ∨ ∃ r, levels' = OpenLevel.record levels r)
  saved : d ≠ Mark.maxLevel → (∃ r b, Arena.save h.now.arena = .ok (.save ⟨d + 1, r⟩) b) ∨
    ∃ f b, Arena.save h.now.arena = .error f b ∧ h.now.arena.OutOfStorage f
  limited : (∃ f b, Arena.save h.now.arena = .error f b ∧ f.report.condition = .limitCheck) ↔
    d = Mark.maxLevel

/-- What the marks have of the level when `d` levels are open. -/
structure LevelMarked (extra : Prop) (h : History) (d : UInt32) : Prop where
  le : ∀ k e, h.now.arena.entry k = .ok e → e.mark.topLevel ≤ d
  made : ∀ size v b, Arena.newArray size h.now.arena = .ok (.composite .array v) b → v.size ≠ 0 →
    ∃ e, b.entry v.ent = .ok e ∧ e.mark.localLevel = d ∧ e.mark.topLevel = d
  preserved : ∀ content k b, (Arena.Call.preserve content k).May extra h →
    Arena.preserve content k h.now.arena = .ok () b → ∃ e, b.entry k = .ok e ∧ e.mark.topLevel = d
  stored : ∀ v i o b, h.now.HasArray (.composite .array v) →
    Arena.arrayPut (.composite .array v) i o h.now.arena = .ok () b →
      ∃ e, b.entry v.ent = .ok e ∧ e.mark.topLevel = d
  lowered : ∀ b, Arena.restore h.now.arena = .ok () b →
    ∀ k e, b.entry k = .ok e → e.mark.topLevel < d

variable {extra : Prop} {terms : Terms} {base limit saves restores n : Nat} {h : History} {l : Ledger}
  {log : Nat → List Record} {a b : Arena} {call which : Arena.Call} {k : Handle} {e : Entry}

namespace Arena

theorem stamp_of_entry (he : a.entry k = .ok e) : a.stamp k = e.mark.topLevel.toNat := by
  rw [stamp_of_cell (cell_eq_of_entry he)]

theorem exists_entry_of_cell {x : Cell} (hx : a.cell k = some x) :
    ∃ e, a.entry k = .ok e ∧ e.mark = x.mark := by
  obtain ⟨e, he, rfl⟩ := entry_of_cell hx
  exact ⟨e, he, rfl⟩

end Arena

/-! ## Saves and restores counted -/

theorem History.tally_of_error {f : Fault} (hrun : call.run h.now.arena = .error f b) :
    h.tally call which n = n := by
  unfold tally
  rw [hrun]

theorem History.tally_of_ok {reply : Reply} (hrun : call.run h.now.arena = .ok reply b) :
    h.tally call which n = if call = which then n + 1 else n := by
  unfold tally
  rw [hrun]

theorem History.tally_of_ne (hne : call ≠ which) : h.tally call which n = n := by
  unfold tally
  split
  · rfl
  · exact if_neg hne

/-- A save that succeeds opens a level, a restore that succeeds closes one, and no other call
does. -/
theorem Account.tally_step (hA : Account (.plain extra) h l log)
    (hcount : saves = restores + h.past.length) :
    h.tally call .save saves = h.tally call .restore restores + (h.step call).past.length := by
  by_cases hsave : call = .save
  · subst hsave
    have hne : Arena.Call.save ≠ .restore := nofun
    rw [History.tally_of_ne hne]
    rcases hA.save_spec with ⟨r, b, l', hrun, -⟩ | ⟨f, b, hrun, -⟩
    · rw [History.tally_of_ok (EStateM.map_of_ok hrun), if_pos rfl, History.step_save_of_ok hrun,
        List.length_cons, hcount, Nat.add_assoc]
    · have herr : Arena.Call.save.run h.now.arena = .error f b := EStateM.map_of_error hrun
      rw [History.tally_of_error herr, History.past_step_of_error herr, hcount]
  by_cases hrestore : call = .restore
  · subst hrestore
    have hne : Arena.Call.restore ≠ .save := nofun
    rw [History.tally_of_ne hne]
    cases hp : h.past with
    | nil =>
      have herr : Arena.Call.restore.run h.now.arena = .error _ h.now.arena :=
        EStateM.bind_of_error (hA.restore_nothing hp)
      rw [History.tally_of_error herr, History.past_step_of_error herr, hcount, hp]
    | cons d rest =>
      obtain ⟨b, l', hrun, -⟩ := hA.restore_spec hp (Nat.zero_le _)
      rw [History.tally_of_ok (EStateM.bind_of_ok hrun), if_pos rfl, History.step_restore_of_ok hrun,
        hcount, hp, List.length_cons, List.tail_cons, Nat.add_right_comm, Nat.add_assoc]
  · rw [History.tally_of_ne hsave, History.tally_of_ne hrestore, History.past_step hsave hrestore,
      hcount]

theorem History.Tally.account (hr : h.Tally extra limit saves restores) :
    (∃ l log, Account (.plain extra) h l log) ∧ saves = restores + h.past.length := by
  induction hr with
  | start => exact ⟨⟨_, _, account_start rfl limit⟩, rfl⟩
  | call _ may ih =>
    obtain ⟨⟨l, log, hA⟩, hcount⟩ := ih
    obtain ⟨l', log', hkept⟩ := hA.step rfl may
    exact ⟨⟨l', log', hkept.account⟩, hA.tally_step hcount⟩

/-- Every run has its tally. -/
theorem History.Run.tally (hr : h.Run extra limit) :
    ∃ saves restores, h.Tally extra limit saves restores := by
  induction hr with
  | start => exact ⟨_, _, .start⟩
  | call _ may ih =>
    obtain ⟨saves, restores, ht⟩ := ih
    exact ⟨_, _, .call ht may⟩

/-! ## The save stack -/

namespace Account

theorem eq_maxLevel_iff (hA : Account terms h l log) :
    UInt32.ofNat h.past.length = Mark.maxLevel ↔ h.past.length = Mark.maxLevel.toNat := by
  rw [← UInt32.toNat_inj, hA.toNat_depth]

theorem count_saves (hA : Account terms h l log) (hmade : h.now.arena.saves ≠ none) :
    h.now.arena.saveStack.count h.now.arena = .ok h.past.length := by
  have hne : l.held .saves ≠ [] := fun hnil => by
    rw [hA.saves, hnil] at hmade
    exact hmade rfl
  have hd := hA.saves_head hne
  have hlaid := hA.describes.laid_of_head (o := .saves) trivial hd
  rw [hlaid.count_eq hA.describes.sound hd, hA.levels, List.length_map, List.length_range]

theorem bottom_saves (hA : Account terms h l log) {k : Nat} (hk : k < h.past.length) :
    h.now.arena.saveStack.bottom k h.now.arena = .ok (l.level k) := by
  have hd := hA.saves_head (hA.saves_ne_nil (Nat.zero_lt_of_lt hk))
  have hlaid := hA.describes.laid_of_head (o := .saves) trivial hd
  refine hlaid.bottom_eq hA.describes.sound hd ?_
  rw [hA.levels, List.getElem?_map, List.getElem?_range hk]
  rfl

/-- A call that failed for want of storage has recorded nothing. -/
theorem keeps_step_of_error (hA : Account terms h l log) {f : Fault}
    (hrun : call.run h.now.arena = .error f b) (hkept : ¬f.stops →
      Account terms ⟨⟨b, h.now.arrays, h.now.liveStacks⟩, h.past⟩ l log) :
    (h.step call).now.arena.Keeps (l.openLevels log h.past.length) := by
  by_cases hstop : f.stops
  · rw [History.step_of_stop hrun hstop]
    exact hA.keeps
  · rw [History.step_of_error hrun hstop]
    exact (hkept hstop).keeps

theorem records_latest (hA : Account (.plain extra) h l log) (hrec : call.Records)
    (may : call.May extra h) : ∃ levels levels', h.now.arena.Keeps levels ∧
      (h.step call).now.arena.Keeps levels' ∧
        (levels' = levels ∨ ∃ r, levels' = OpenLevel.record levels r) := by
  cases call with
  | arrayPut array i o =>
    rcases hA.arrayPut_spec may i o with ⟨b, l', log', hrun, -, hAb, -, hlevels⟩ | ⟨f, b, hrun, -, hkept⟩
    · have hok : (Arena.Call.arrayPut array i o).run h.now.arena = .ok .done b :=
        EStateM.bind_of_ok hrun
      rw [History.step_of_ok hok (by simp) (by simp)]
      exact ⟨_, _, hA.keeps, hAb.keeps, hlevels⟩
    · have herr : (Arena.Call.arrayPut array i o).run h.now.arena = .error f b :=
        EStateM.bind_of_error hrun
      exact ⟨_, _, hA.keeps, hA.keeps_step_of_error herr fun hgoes => (hkept hgoes).1, .inl rfl⟩
  | preserve content k =>
    obtain ⟨hextra, v, hv, rfl⟩ := may
    obtain ⟨he, hd⟩ := hA.recordable hv
    rcases hA.preserve_spec content he (fun _ => hd) (fun hnot => absurd hextra hnot) with
      ⟨b, l', log', hrun, hAb, -, ⟨copy, hlevels⟩, -⟩ | ⟨f, b, hrun, -, hkept⟩
    · have hok : (Arena.Call.preserve content v.ent).run h.now.arena = .ok .done b :=
        EStateM.bind_of_ok hrun
      rw [History.step_of_ok hok (by simp) (by simp)]
      exact ⟨_, _, hA.keeps, hAb.keeps, .inr ⟨_, hlevels⟩⟩
    · have herr : (Arena.Call.preserve content v.ent).run h.now.arena = .error f b :=
        EStateM.bind_of_error hrun
      exact ⟨_, _, hA.keeps, hA.keeps_step_of_error herr fun hgoes => (hkept hgoes).1, .inl rfl⟩
  | _ => exact hrec.elim

theorem depthExact (hA : Account (.plain extra) h l log) :
    DepthExact extra h (UInt32.ofNat h.past.length) where
  depth := hA.depth_eq
  depth_le := hA.level_le
  counted hmade := by
    rw [hA.toNat_depth]
    exact hA.count_saves hmade
  numbered k hk := by
    rw [hA.toNat_depth] at hk
    have hmax : h.past.length ≤ 0xFFF := hA.depth_le
    refine ⟨_, hA.bottom_saves hk, ?_⟩
    rw [UInt32.toNat_ofNat']
    omega
  recorded _ hrec may := hA.records_latest hrec may
  saved hne := by
    rw [Ne, hA.eq_maxLevel_iff] at hne
    rcases hA.save_spec with ⟨r, b, l', hrun, -⟩ | ⟨f, b, hrun, ⟨-, hfull⟩ | ⟨hf, -⟩, -⟩
    · rw [ofNat_succ] at hrun
      exact .inl ⟨r, b, hrun⟩
    · exact absurd hfull hne
    · exact .inr ⟨f, b, hrun, hf⟩
  limited := by
    rw [hA.eq_maxLevel_iff]
    rcases hA.save_spec with ⟨r, b, l', hrun, hAb, -⟩ | ⟨f, b, hrun, hfails, -⟩
    · refine iff_of_false ?_ (Nat.ne_of_lt hAb.depth_le)
      rintro ⟨f, c, hfail, -⟩
      cases hrun.symm.trans hfail
    · have hcause : (∃ f b, Arena.save h.now.arena = .error f b ∧
          f.report.condition = .limitCheck) ↔ f.report.condition = .limitCheck := by
        refine ⟨?_, fun hf => ⟨f, b, hrun, hf⟩⟩
        rintro ⟨g, c, hfail, hg⟩
        cases hrun.symm.trans hfail
        exact hg
      rw [hcause]
      rcases hfails with ⟨rfl, hfull⟩ | ⟨hf, hlt⟩
      · exact iff_of_true rfl hfull
      · refine iff_of_false (fun hlimit => ?_) (Nat.ne_of_lt hlt)
        have hcondition := hf.condition
        rw [hlimit] at hcondition
        exact hcondition.elim nofun nofun

/-! ## The marks -/

/-- The stamp of a live entity that was given the current level. -/
theorem entry_of_stamp {x : Arena.Cell} (hA : Account terms h l log) (hx : b.cell k = some x)
    (hstamp : b.stamp k = h.past.length) :
    ∃ e, b.entry k = .ok e ∧ e.mark.topLevel = UInt32.ofNat h.past.length := by
  obtain ⟨e, he, -⟩ := Arena.entry_of_cell hx
  refine ⟨e, he, ?_⟩
  rw [← UInt32.toNat_inj, ← Arena.stamp_of_entry he, hstamp, hA.toNat_depth]

theorem levelMarked (hA : Account (.plain extra) h l log) :
    LevelMarked extra h (UInt32.ofNat h.past.length) where
  le k e he := by
    rw [UInt32.le_iff_toNat_le, ← Arena.stamp_of_entry he, hA.toNat_depth]
    exact hA.below k
  made size v b hrun hsize := by
    rcases hA.newArray_spec size with ⟨w, c, l', hrun', -, -, hmade, -⟩ | ⟨f, hrun'⟩
    · cases hrun.symm.trans hrun'
      obtain ⟨y, hy, hmark⟩ := hmade hsize
      obtain ⟨e, he, hsame⟩ := Arena.exists_entry_of_cell hy
      refine ⟨e, he, ?_, ?_⟩
      · rw [hsame, hmark, Mark.localLevel_ofLevel hA.level_le]
      · rw [hsame, hmark, Mark.topLevel_ofLevel hA.level_le]
    · cases hrun.symm.trans hrun'
  preserved content k b may hrun := by
    obtain ⟨hextra, v, hv, rfl⟩ := may
    obtain ⟨he, hd⟩ := hA.recordable hv
    rcases hA.preserve_spec content he (fun _ => hd) (fun hnot => absurd hextra hnot) with
      ⟨c, l', log', hrun', hAc, -, -, hstamp, -⟩ | ⟨f, c, hrun', -⟩
    · cases hrun.symm.trans hrun'
      obtain ⟨x, hx⟩ := hAc.cell_recordable he
      exact hA.entry_of_stamp hx hstamp
    · cases hrun.symm.trans hrun'
  stored v i o b harray hrun := by
    rcases hA.arrayPut_spec harray i o with
      ⟨c, l', log', hrun', ⟨w, heq, -, hstored, hstamp⟩, -⟩ | ⟨f, c, hrun', -⟩
    · cases hrun.symm.trans hrun'
      cases heq
      obtain ⟨x, hx, -⟩ := hstored.here
      exact hA.entry_of_stamp hx hstamp
    · cases hrun.symm.trans hrun'
  lowered b hrun k e he := by
    cases hp : h.past with
    | nil => cases hrun.symm.trans (hA.restore_nothing hp)
    | cons d rest =>
      obtain ⟨c, l', hrun', hc⟩ := hA.restore_spec hp (Nat.zero_le _)
      cases hrun.symm.trans hrun'
      rw [UInt32.lt_iff_toNat_lt, ← Arena.stamp_of_entry he, ← hp, hA.toNat_depth, hp]
      exact Nat.lt_succ_of_le (hc.below k)

end Account

/-- After any calls the depth is the number of saves that succeeded less that of restores. The
levels on the save stack have their numbers, records go to the latest of them, and a save opens the
next one unless storage is short or 4095 are open. The marks are given the number of the latest
level, and a number that levels can have is read back from a mark as it was written. -/
theorem save_depth_exact (hr : h.Tally extra limit saves restores) :
    ∃ d : UInt32, saves = restores + d.toNat ∧ DepthExact extra h d ∧ LevelMarked extra h d ∧
      (∀ level ≤ Mark.maxLevel, (Mark.ofLevel level).localLevel = level ∧
        (Mark.ofLevel level).topLevel = level ∧ ∀ m : Mark,
          (m.withTopLevel level).topLevel = level ∧
            (m.withTopLevel level).localLevel = m.localLevel) ∧
      ∀ i j : UInt32, i ≤ Mark.maxLevel → j ≤ Mark.maxLevel → ∀ m m' : Mark,
        (m.withTopLevel i).topLevel = (m'.withTopLevel j).topLevel → i = j := by
  obtain ⟨⟨l, log, hA⟩, hcount⟩ := hr.account
  refine ⟨UInt32.ofNat h.past.length, ?_, hA.depthExact, hA.levelMarked, fun level hle => ?_,
    fun i j hi hj m m' hsame => ?_⟩
  · rw [hA.toNat_depth, hcount]
  · exact ⟨Mark.localLevel_ofLevel hle, Mark.topLevel_ofLevel hle, fun m =>
      ⟨Mark.topLevel_withTopLevel m hle, Mark.localLevel_withTopLevel m hle⟩⟩
  · rwa [Mark.topLevel_withTopLevel m hi, Mark.topLevel_withTopLevel m' hj] at hsame

/-- A level is open, with a record in it. -/
theorem save_depth_exact_arrayStored :
    ∃ saves restores, History.arrayStored.Tally False 1000 saves restores ∧
      saves = restores + 1 ∧ DepthExact False .arrayStored 1 ∧ LevelMarked False .arrayStored 1 := by
  obtain ⟨saves, restores, ht⟩ := History.run_arrayStored.tally
  obtain ⟨d, hcount, hexact, hmarked, -⟩ := save_depth_exact ht
  obtain rfl : d = 1 := Except.ok.inj (hexact.depth.symm.trans History.arena_arrayStored.1)
  exact ⟨saves, restores, ht, hcount, hexact, hmarked⟩

end BankedMemory
