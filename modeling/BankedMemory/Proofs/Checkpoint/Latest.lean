import BankedMemory.Proofs.Checkpoint.Restoring

/-!
# The level opened last

Whether a restore succeeds is decided by the level on top of the save stack and its stack of records
alone, whatever else there is in the arena. If each record can be undone when its turn comes, and
the level is no forged one that calls itself 0, it is closed. If the record last made cannot be
undone, or what was pushed last is none, the restore fails, and by then the level is off the save
stack.
-/

namespace BankedMemory.Arena

/-- The save stack, in the segments `saves`, ends in `level`, whose stack of records has the values
`vals` in the segments `segs`. -/
structure Latest (a : Arena) (saves : List Handle) (below : List Object) (level : SaveLevel)
    (segs : List Handle) (vals : List Object) : Prop where
  opened : a.saves = saves.head?
  levels : a.Laid saves (below ++ [.save level])
  head : segs.head? = some level.records
  records : a.Laid segs vals
  apart : ∀ k ∈ segs, k ∉ saves

/-- The records can be undone, the last one first: the rows they name are live and not among `segs`,
and none is about a copy that is given back before its turn. -/
structure Undoable (a : Arena) (segs : List Handle) (rs : List Record) : Prop where
  live : ∀ r ∈ rs, a.Live r.source ∧ a.Live r.copy
  outside : ∀ r ∈ rs, r.source ∉ segs ∧ r.copy ∉ segs
  copy_ne_zero : ∀ r ∈ rs, r.copy ≠ 0
  turn : rs.Pairwise fun q r => q.source ≠ r.copy ∧ q.copy ≠ r.copy

/-- The level opened last calls itself by a number that is a level's, and every record of it can be
undone. -/
def LevelIntact (a : Arena) : Prop :=
  ∃ saves below level segs rs, a.Latest saves below level segs (rs.map .record) ∧
    level.level ≠ 0 ∧ a.Undoable (saves ++ segs) rs

/-- What cannot be undone: a value that is no record, or a record of an entity or with a copy that
is not there. -/
def Spoiled (a : Arena) (o : Object) : Prop :=
  ∀ r, o = .record r → ¬a.Live r.source ∨ ¬a.Live r.copy

variable {a b : Arena} {saves segs F : List Handle} {below vals : List Object} {level : SaveLevel}
  {r : Record} {rs : List Record} {o : Object} {s : Stack} {d : UInt32} {n : Nat}

/-! ## Undoing -/

theorem undo_live (hs : a.Sound) (hsource : a.Live r.source) (hcopy : a.Live r.copy)
    (hne : r.copy ≠ 0) :
    ∃ b, undo r a = .ok () b ∧ Rewrites {r.source, r.copy} a b ∧
      ∀ k, k ≠ r.copy → (b.Live k ↔ a.Live k) := by
  obtain ⟨b, hrun, hr, hlive⟩ := exchange_live hs hsource hcopy
  obtain ⟨y, hy⟩ := live_iff_cell.mp ((hlive r.copy).mpr hcopy)
  obtain ⟨c, hfree, hrc, -⟩ := free_spec hr.sound hne hy
  refine ⟨c, ?_, hr.comp (hrc.mono fun k hk => .inr hk), fun k hk => ?_⟩
  · unfold undo
    rw [EStateM.bind_of_ok hrun]
    exact hfree
  · rw [live_iff_cell, hrc.cell k hk, ← live_iff_cell, hlive]

namespace Undoable

theorem congr (hu : a.Undoable F rs) (hlive : ∀ k, b.Live k ↔ a.Live k) : b.Undoable F rs :=
  { hu with live := fun r hr => (hu.live r hr).imp (hlive _).mpr (hlive _).mpr }

/-- The records that are left can be undone after the last one. -/
theorem init (hu : a.Undoable F (rs ++ [r])) (hlive : ∀ k, k ≠ r.copy → (b.Live k ↔ a.Live k)) :
    b.Undoable F rs := by
  have hmem : ∀ q ∈ rs, q ∈ rs ++ [r] := fun q hq => List.mem_append_left _ hq
  obtain ⟨hturn, -, hlast⟩ := List.pairwise_append.mp hu.turn
  refine ⟨fun q hq => ?_, fun q hq => hu.outside q (hmem q hq),
    fun q hq => hu.copy_ne_zero q (hmem q hq), hturn⟩
  obtain ⟨hsource, hcopy⟩ := hlast q hq r (List.mem_singleton_self r)
  exact (hu.live q (hmem q hq)).imp (hlive _ hsource).mpr (hlive _ hcopy).mpr

/-- A table has more rows than a level has records. -/
theorem length_lt (hu : a.Undoable F rs) : rs.length < a.chainBound := by
  have hnodup : (rs.map (·.copy)).Nodup := List.pairwise_map.mpr (hu.turn.imp And.right)
  have hle := length_le_size hnodup fun k hk => by
    obtain ⟨r, hr, rfl⟩ := List.mem_map.mp hk
    exact (hu.live r hr).2
  rw [List.length_map] at hle
  exact Nat.lt_succ_of_le hle

/-- The stack of records is emptied. Of the rows the records are to keep off, only its segments
change. -/
theorem undoAll_spec (hu : a.Undoable F rs) (hs : a.Sound) (hd : segs.head? = some s.handle)
    (hl : a.Laid segs (rs.map .record)) (hsegs : ∀ k ∈ segs, k ∈ F) (hn : rs.length < n) :
    ∃ b, undoAll s n a = .ok () b ∧ Touches {k | k ∈ segs ∨ k ∉ F} a b ∧ b.Laid segs [] := by
  induction rs using List.reverseRecOn generalizing a n with
  | nil =>
    obtain ⟨n, rfl⟩ : ∃ m, n = m + 1 := ⟨n - 1, by omega⟩
    refine ⟨a, ?_, .refl hs, hl⟩
    rw [undoAll, ArenaM.reading_bind (hl.isEmpty_eq hs hd)]
    rfl
  | append_singleton rs r ih =>
    obtain ⟨n, rfl⟩ : ∃ m, n = m + 1 := ⟨n - 1, by omega⟩
    rw [List.length_append, List.length_singleton] at hn
    have hsome : s.isEmpty a = .ok false := by
      rw [hl.isEmpty_eq hs hd]
      simp
    rw [List.map_append, List.map_singleton] at hl
    obtain ⟨b, hpop, hrb, hlb⟩ := hl.pop_spec hs hd
    have hub := hu.congr (hrb.live_iff fun k hk => iff_of_true (hlb.live hk) (hl.live hk))
    have hr : r ∈ rs ++ [r] := List.mem_append_right _ (List.mem_singleton_self r)
    obtain ⟨hsource, hcopy⟩ := hub.live r hr
    obtain ⟨hsourceF, hcopyF⟩ := hub.outside r hr
    obtain ⟨c, hundo, hrc, hlive⟩ := undo_live hrb.sound hsource hcopy (hub.copy_ne_zero r hr)
    have hout : ∀ k ∈ ({r.source, r.copy} : Set Handle), k ∉ F := by
      rintro k (rfl | rfl)
      · exact hsourceF
      · exact hcopyF
    have hlc := hlb.of_touches hrc.toTouches fun k hk hmem => hout k hmem (hsegs k hk)
    obtain ⟨e, hrest, hte, hle⟩ := ih (hub.init hlive) hrc.sound hlc (n := n) (by omega)
    refine ⟨e, ?_, ?_, hle⟩
    · rw [undoAll_record hsome hpop, EStateM.bind_of_ok hundo]
      exact hrest
    · have htb := hrb.toTouches.mono (G := {k | k ∈ segs ∨ k ∉ F}) fun k hk => .inl hk
      have htc := hrc.toTouches.mono (G := {k | k ∈ segs ∨ k ∉ F}) fun k hk => .inr (hout k hk)
      exact (htb.comp htc).comp hte

end Undoable

/-- Undoing stops at a last value that cannot be undone; it is off its stack then. -/
theorem Spoiled.undoAll_error (ho : a.Spoiled o) (hs : a.Sound) (hd : segs.head? = some s.handle)
    (hl : a.Laid segs (vals ++ [o])) : ∃ f b, undoAll s (n + 1) a = .error f b ∧
      Rewrites {k | k ∈ segs} a b ∧ b.Laid segs vals := by
  have hsome : s.isEmpty a = .ok false := by
    rw [hl.isEmpty_eq hs hd]
    simp
  obtain ⟨b, hpop, hrb, hlb⟩ := hl.pop_spec hs hd
  have hlive := hrb.live_iff fun k hk => iff_of_true (hlb.live hk) (hl.live hk)
  by_cases hrecord : ∃ r, o = .record r
  · obtain ⟨r, rfl⟩ := hrecord
    obtain ⟨f, hfail⟩ : ∃ f, exchange r.source r.copy b = .error f b := exchange_error <|
      (ho r rfl).imp (mt (hlive _).mp) (mt (hlive _).mp)
    refine ⟨f, b, ?_, hrb, hlb⟩
    rw [undoAll_record hsome hpop]
    exact EStateM.bind_of_error (EStateM.bind_of_error hfail)
  · exact ⟨_, b, undoAll_foreign hsome hpop (not_exists.mp hrecord), hrb, hlb⟩

/-! ## Restoring -/

namespace Latest

variable (hs : a.Sound) (hl : a.Latest saves below level segs vals)

include hl

theorem head_saves : saves.head? = some a.saveStack.handle := by
  have hroom := hl.levels.room
  unfold saveStack
  rw [hl.opened]
  cases saves with
  | nil => exact absurd hroom (Nat.not_lt_zero _)
  | cons seg rest => rfl

include hs

theorem depth_eq : a.depth = .ok (UInt32.ofNat (below.length + 1)) := by
  rw [hl.levels.depth_eq hs hl.opened, List.length_append, List.length_singleton]

theorem pop_spec : ∃ b, a.saveStack.pop a = .ok (.save level) b ∧ Rewrites {k | k ∈ saves} a b ∧
    b.Laid saves below ∧ b.Laid segs vals ∧ ∀ k, b.Live k ↔ a.Live k := by
  obtain ⟨b, hpop, hr, hlb⟩ := hl.levels.pop_spec hs hl.head_saves
  exact ⟨b, hpop, hr, hlb, hl.records.of_touches hr.toTouches hl.apart,
    hr.live_iff fun k hk => iff_of_true (hlb.live hk) (hl.levels.live hk)⟩

/-- The depth when the level is off the save stack and what was done since did not touch that. -/
theorem depth_less (hdepth : a.depth = .ok d) (hsb : b.Sound) (hopened : b.saves = a.saves)
    (hlb : b.Laid saves below) : b.depth = .ok (d - 1) := by
  cases hdepth.symm.trans (hl.depth_eq hs)
  rw [hlb.depth_eq hsb (hopened.trans hl.opened), ofNat_succ_sub_one]

/-- A value is pushed onto the stack of records, within the segments there are. -/
theorem push (o : Object) (hroom : vals.length % segmentSize + 1 ≠ segmentSize) :
    ∃ b, (Stack.mk level.records).push o a = .ok () b ∧ b.Sound ∧
      b.Latest saves below level segs (vals ++ [o]) := by
  obtain ⟨b, hpush, hr, hlb⟩ := hl.records.push_within (s := ⟨level.records⟩) hs hl.head o hroom
  exact ⟨b, hpush, hr.sound, hr.saves.trans hl.opened,
    hl.levels.of_touches hr.toTouches fun k hk hseg => hl.apart k hseg hk, hl.head, hlb, hl.apart⟩

end Latest

/-- A level whose records can all be undone is closed. -/
theorem Latest.restore_ok (hs : a.Sound) (hl : a.Latest saves below level segs (rs.map .record))
    (hlevel : level.level ≠ 0) (hu : a.Undoable (saves ++ segs) rs) (hdepth : a.depth = .ok d)
    (hd : d ≠ 0) : ∃ b, restore a = .ok () b ∧ b.depth = .ok (d - 1) := by
  obtain ⟨b, hpop, hrb, hsaves, hlb, hlive⟩ := hl.pop_spec hs
  have hub := hu.congr hlive
  obtain ⟨c, hundo, htc, hlc⟩ := hub.undoAll_spec (s := ⟨level.records⟩) hrb.sound hl.head hlb
    (fun k hk => List.mem_append_right _ hk) hub.length_lt
  have hsaves := hsaves.of_touches htc fun k hk hmem => hmem.elim (fun hseg => hl.apart k hseg hk)
    fun hnot => hnot (List.mem_append_left _ hk)
  obtain ⟨e, hfree, hre, -⟩ := hlc.free_spec (s := ⟨level.records⟩) htc.sound hl.head
  have hsaves := hsaves.of_touches hre.toTouches fun k hk hseg => hl.apart k hseg hk
  obtain ⟨m, f, hlower, hrf, hcell⟩ := lowerTopLevels_spec hre.sound (level.level - 1)
  refine ⟨f, restore_eq hdepth hd hpop hlevel hundo hfree hlower,
    hl.depth_less hs hdepth hrf.sound ?_ ?_⟩
  · rw [hrf.saves, hre.saves, htc.saves, hrb.saves]
  · exact hsaves.frame fun k hk => hsaves.cell_lowered hcell hk

/-- A level whose last value cannot be undone is lost: the restore fails with the level off the save
stack and the value off the stack of records. No row but the segments of these two has changed, so
the stack of records is still there and the stamps are as high as they were. -/
theorem Latest.restore_spoiled (hs : a.Sound) (hl : a.Latest saves below level segs (vals ++ [o]))
    (ho : a.Spoiled o) (hdepth : a.depth = .ok d) (hd : d ≠ 0) :
    ∃ f b, restore a = .error f b ∧ b.depth = .ok (d - 1) ∧ b.Laid segs vals ∧
      Rewrites {k | k ∈ saves ∨ k ∈ segs} a b := by
  obtain ⟨b, hpop, hrb, hsaves, hlb, hlive⟩ := hl.pop_spec hs
  have hob : b.Spoiled o := fun r hr => (ho r hr).imp (mt (hlive _).mp) (mt (hlive _).mp)
  obtain ⟨f, c, hundo, hrc, hlc⟩ := hob.undoAll_error (n := b.table.size) (s := ⟨level.records⟩)
    hrb.sound hl.head hlb
  refine ⟨f, c, restore_error hdepth hd hpop hundo, hl.depth_less hs hdepth hrc.sound ?_ ?_, hlc,
    (hrb.mono fun k hk => .inl hk).comp (hrc.mono fun k hk => .inr hk)⟩
  · rw [hrc.saves, hrb.saves]
  · exact hsaves.of_touches hrc.toTouches fun k hk hseg => hl.apart k hseg hk

end BankedMemory.Arena

namespace BankedMemory

variable {base : Nat} {h : History} {l : Ledger} {log : Nat → List Record} {saved : Client}
  {outer : List Client}

namespace Holdings

/-- The level that a client opened last. -/
theorem latest (hh : Holdings base h l log) (hp : h.past = saved :: outer) :
    h.now.arena.Latest (l.held .saves) ((List.range outer.length).map l.level)
      ⟨UInt32.ofNat (outer.length + 1), (l.held (.records outer.length)).headD 0⟩
      (l.held (.records outer.length)) ((log outer.length).map .record) := by
  have hopen : outer.length < h.past.length := by
    rw [hp]
    exact Nat.lt_succ_self _
  have hd := hh.saves_head (hh.saves_ne_nil (Nat.zero_lt_of_lt hopen))
  have hlevels := hh.describes.laid_of_head (o := .saves) trivial hd
  rw [hh.levels, hp, List.length_cons, List.range_succ, List.map_append, List.map_singleton]
    at hlevels
  have hrecords := hh.describes.laid_of_head (o := .records outer.length)
    (s := ⟨(l.held (.records outer.length)).headD 0⟩) trivial (hh.records_head hopen)
  rw [(hh.opened _ hopen).2] at hrecords
  exact ⟨hh.saves, hlevels, hh.records_head hopen, hrecords,
    fun k hk => hh.describes.not_mem_of_ne hk (by simp)⟩

/-- Whatever calls a client makes, the level it opened last stays intact, unless that is given
up. -/
theorem levelIntact (hh : Holdings base h l log) (hp : h.past = saved :: outer)
    (hbase : base ≤ outer.length) : h.now.arena.LevelIntact := by
  refine ⟨_, _, _, _, _, hh.latest hp, ?_, fun r hr => ⟨?_, ?_⟩, fun r hr => ⟨?_, ?_⟩,
    fun r hr => hh.copy_ne_zero hr, ?_⟩
  · have hpos := hh.depth_ne_zero (by rw [hp]; exact Nat.succ_pos _)
    rwa [hp, List.length_cons] at hpos
  · rcases hh.source hbase hr with h0 | hmem
    · rw [h0]
      exact hh.describes.sound.live_zero
    · exact Arena.live_iff_cell.mpr (hh.cell_entity hmem)
  · exact Arena.live_iff_cell.mpr (hh.cell_copy hr)
  · rw [List.mem_append, not_or]
    rcases hh.source hbase hr with h0 | hmem
    · rw [h0]
      exact ⟨hh.describes.zero _, hh.describes.zero _⟩
    · rw [← hh.array] at hmem
      exact ⟨hh.describes.not_mem_of_ne hmem (by simp), hh.describes.not_mem_of_ne hmem (by simp)⟩
  · rw [List.mem_append, not_or]
    have hmem := hh.mem_copies hr
    exact ⟨hh.describes.not_mem_of_ne hmem (by simp), hh.describes.not_mem_of_ne hmem (by simp)⟩
  · have hnodup := hh.describes.nodup (.copies outer.length)
    rw [hh.copies] at hnodup
    refine (List.pairwise_map.mp hnodup).imp_of_mem fun hq hr hne => ⟨?_, hne⟩
    exact hh.source_ne_copy hbase hq hr

end Holdings

end BankedMemory
