import BankedMemory.Proofs.Checkpoint.Latest
import BankedMemory.Proofs.Checkpoint.OpenLevels
import BankedMemory.Proofs.Checkpoint.Snapshot

/-!
# Arrays that are freed while levels are open

A client may give the storage of an array back to the arena. A record names its array by handle
alone, and freeing does not look at the records, so a level that has a record of the array cannot be
closed any more as it should: `freed_array_not_restored`. That is all the harm done: any other level
closes as if nothing had been freed, also when new arrays have taken the freed handles, and the
levels outside it are no hindrance. This is `restore_beside_freed`.
-/

namespace BankedMemory

namespace Client

/-- The client without the array on entity `k`. Its arena is as it was. -/
def without (c : Client) (k : Handle) : Client :=
  ⟨c.arena, c.arrays.filter (·.ent ≠ k), c.liveStacks⟩

variable {c : Client} {v : View} {k e : Handle}

theorem mem_arrays_without : v ∈ (c.without k).arrays ↔ v ∈ c.arrays ∧ v.ent ≠ k := by
  unfold without
  rw [List.mem_filter, decide_eq_true_iff]

theorem entities_without : (c.without k).entities = c.entities.filter (· ≠ k) := by
  unfold without entities
  rw [List.filter_map, List.filter_filter, List.filter_filter]
  refine congrArg (List.map _) (List.filter_congr fun v _ => ?_)
  exact Bool.and_comm ..

theorem mem_entities_without : e ∈ (c.without k).entities ↔ e ∈ c.entities ∧ e ≠ k := by
  rw [entities_without, List.mem_filter, decide_eq_true_iff]

end Client

namespace History

/-- The client has the arena `b` now and no longer the array on entity `k`, nor did it ever. -/
def freed (h : History) (b : Arena) (k : Handle) : History :=
  ⟨(Client.mk b h.now.arrays h.now.liveStacks).without k, h.past.map (·.without k)⟩

/-- The history after an array was freed. -/
def freeArray (h : History) (k : Handle) : History :=
  match Arena.free k h.now.arena with
  | .error _ b => ⟨⟨b, h.now.arrays, h.now.liveStacks⟩, h.past⟩
  | .ok _ b => h.freed b k

theorem freeArray_of_ok {h : History} {b : Arena} {k : Handle}
    (hrun : Arena.free k h.now.arena = .ok () b) : h.freeArray k = h.freed b k := by
  unfold freeArray; rw [hrun]

/-- Every record of the latest level is about an array that the client had when the level was opened
and has not freed. -/
def Whole (h : History) : Prop :=
  ∀ saved outer, h.past = saved :: outer → ∀ levels, h.now.arena.Keeps levels →
    ∀ v, levels.getLast? = some v → ∀ r ∈ v.records, r.source ∈ saved.entities

/-- The histories of a client that also frees arrays, as long as it closes no level that has a
record of an array freed. -/
inductive FreeingRun (limit : Nat) : History → Prop where
  | start : FreeingRun limit (.start limit)
  | call {h : History} {call : Arena.Call} (run : FreeingRun limit h) (may : call.May False h)
      (whole : call = .restore → h.Whole) : FreeingRun limit (h.step call)
  | free {h : History} {v : View} (run : FreeingRun limit h) (mine : v ∈ h.now.arrays) :
      FreeingRun limit (h.freeArray v.ent)

end History

variable {terms : Terms} {base base' limit : Nat} {h : History} {l : Ledger}
  {log : Nat → List Record} {a b : Arena} {k : Handle} {saved : Client} {outer : List Client}

/-! ## Giving levels up -/

theorem Memory.above (hm : Memory base h log) (hle : base ≤ base') : Memory base' h log :=
  ⟨fun k hk => hm.readable k (Nat.le_trans hle hk),
    fun c outer hs hk => hm.kept c outer hs (Nat.le_trans hle hk),
    fun c outer hs hk => hm.stamped c outer hs (Nat.le_trans hle hk), hm.below⟩

theorem Account.widen (hA : Account terms h l log) (hbase : terms.base = 0) :
    Account (.wider 0) h l log where
  toHoldings := hbase ▸ hA.toHoldings
  toMemory := hbase ▸ hA.toMemory
  enclosed hwide := absurd trivial hwide
  once hextra := absurd trivial hextra
  sourced hextra := absurd trivial hextra
  unstamped hextra := absurd trivial hextra

/-- The least level above which no record is about `k`, if it is above `base`. -/
theorem exists_clear (log : Nat → List Record) (k : Handle) (base m : Nat)
    (hclear : ∀ j, base + m ≤ j → ∀ r ∈ log j, r.source ≠ k) :
    ∃ base', base ≤ base' ∧ base' ≤ base + m ∧ (∀ j, base' ≤ j → ∀ r ∈ log j, r.source ≠ k) ∧
      (base' = base ∨ ∃ j, j + 1 = base' ∧ ∃ r ∈ log j, r.source = k) := by
  induction m with
  | zero => exact ⟨base, Nat.le_refl _, Nat.le_refl _, hclear, .inl rfl⟩
  | succ m ih =>
    by_cases hbad : ∃ r ∈ log (base + m), r.source = k
    · exact ⟨base + (m + 1), by omega, Nat.le_refl _, hclear, .inr ⟨base + m, rfl, hbad⟩⟩
    · obtain ⟨base', h1, h2, h3, h4⟩ := ih fun j hj r hr heq => by
        rcases Nat.lt_or_eq_of_le hj with hlt | rfl
        · exact hclear j hlt r hr heq
        · exact hbad ⟨r, hr, heq⟩
      exact ⟨base', h1, by omega, h3, h4⟩

/-! ## Freeing an array -/

theorem past_without {past : List Client} {d : Client} (hs : d :: outer <:+ past.map (·.without k)) :
    ∃ c rest, d = c.without k ∧ outer = rest.map (·.without k) ∧ c :: rest <:+ past := by
  obtain ⟨front, happend⟩ := hs
  obtain ⟨inner, tail, rfl, -, htail⟩ := List.map_eq_append_iff.mp happend.symm
  obtain ⟨c, rest, rfl, rfl, rfl⟩ := List.map_eq_cons_iff.mp htail
  exact ⟨c, rest, rfl, rfl, inner, rfl⟩

/-- Who holds what after the array is freed. -/
theorem Holdings.without (hh : Holdings base h l log) (hlevel : base' ≤ h.past.length)
    (hle : base ≤ base') (hclear : ∀ j, base' ≤ j → ∀ r ∈ log j, r.source ≠ k)
    (habandoned : Abandoned base' (h.past.map (·.without k)) log)
    (hl : (l.set .array ((l.held .array).filter (· ≠ k)) (l.values .array)).Describes b)
    (hsaves : b.saves = h.now.arena.saves) :
    Holdings base' (h.freed b k) (l.set .array ((l.held .array).filter (· ≠ k)) (l.values .array))
      log := by
  refine hh.rearray (h := h) (List.length_map _) ?_ hl hsaves (fun v hv => ?_) ?_ ?_ habandoned
    fun {j r} hj hr => ?_
  · rw [hh.array]
    exact Client.entities_without.symm
  · exact hh.root v (List.mem_of_mem_filter hv)
  · have holder : ((h.now.arrays :: h.past.map (·.arrays)).map (List.filter (·.ent ≠ k))).Pairwise
        fun d c => c <:+ d := hh.older.map _ fun _ _ hs => hs.filter _
    rw [List.map_cons, List.map_map] at holder
    rw [List.map_map]
    exact holder
  · rwa [List.length_map]
  · refine (hh.source (Nat.le_trans hle hj) hr).imp_right fun hmem => ?_
    rw [hh.array, List.mem_filter, decide_eq_true_iff]
    exact ⟨hmem, hclear j hj r hr⟩

theorem Memory.without (hm : Memory base h log) (hh : Holdings base h l log)
    (hsame : ∀ e ∈ h.now.entities, e ≠ k → ∀ j, b.shown (origin (since log j h.past.length) e) =
      h.now.arena.shown (origin (since log j h.past.length) e))
    (hbelow : ∀ e, b.stamp e ≤ h.past.length) : Memory base (h.freed b k) log := by
  have hlen : (h.freed b k).past.length = h.past.length := List.length_map _
  refine ⟨?_, ?_, ?_, ?_⟩
  · intro j hbase hj v hv i hi
    rw [hlen] at hj ⊢
    obtain ⟨hv, hne⟩ := Client.mem_arrays_without.mp hv
    obtain ⟨o, ho⟩ := hm.readable j hbase hj v hv i hi
    exact ⟨o, ho.of_shown (hsame _ (Client.mem_entities hv (size_ne_zero hi)) hne j)⟩
  · intro d outer hs hbase v hv i hi
    obtain ⟨c, rest, rfl, rfl, hinner⟩ := past_without hs
    rw [hlen]
    rw [List.length_map] at hbase ⊢
    obtain ⟨hv, hne⟩ := Client.mem_arrays_without.mp hv
    obtain ⟨o, hread, ho⟩ := hm.kept c rest hinner hbase v hv i hi
    have hv' := (hh.arrays_suffix hinner).subset hv
    exact ⟨o, hread, ho.of_shown (hsame _ (Client.mem_entities hv' (size_ne_zero hi)) hne _)⟩
  · intro d outer hs hbase e he
    obtain ⟨c, rest, rfl, rfl, hinner⟩ := past_without hs
    obtain ⟨he, hne⟩ := Client.mem_entities_without.mp he
    rw [hlen]
    rw [List.length_map] at hbase ⊢
    have hstamped := hm.stamped c rest hinner hbase e he
    rw [← Arena.stamp_of_shown (hsame e he hne _)] at hstamped
    rw [Client.mem_entities_without]
    exact hstamped.trans (or_congr_right (not_congr (iff_of_eq (by simp [hne]))))
  · intro e
    rw [hlen]
    exact hbelow e

/-- The array goes, and with it the levels that have a record of it and all below them. -/
theorem Account.free_spec (hA : Account (.wider base) h l log) (hk : k ∈ h.now.entities)
    (hlevel : base' ≤ h.past.length) (hle : base ≤ base')
    (hclear : ∀ j, base' ≤ j → ∀ r ∈ log j, r.source ≠ k)
    (habandoned : Abandoned base' (h.past.map (·.without k)) log) :
    ∃ b l', Arena.free k h.now.arena = .ok () b ∧ b.cell k = none ∧
      Account (.wider base') (h.freed b k) l' log := by
  obtain ⟨x, hx⟩ := hA.cell_entity hk
  have hheld : k ∈ l.held .array := hA.array ▸ hk
  obtain ⟨b, hrun, hr, hdead⟩ := Arena.free_spec hA.describes.sound (hA.describes.ne_zero hheld) hx
  have hl : (l.set .array ((l.held .array).filter (· ≠ k)) (l.values .array)).Describes b := by
    refine hA.describes.update hr.toTouches ?_ (fun j hj => .inl (List.mem_of_mem_filter hj))
      ((hA.describes.nodup .array).filter _) (fun j hj => ?_) (fun j hj hnot => ?_)
      fun ho => absurd ho id
    · rintro j rfl
      exact .inl hheld
    · rw [List.mem_filter, decide_eq_true_iff] at hj
      rw [Arena.live_iff_cell, hr.cell j hj.2, ← Arena.live_iff_cell]
      exact hA.describes.live_of_mem hj.1
    · rw [List.mem_filter, decide_eq_true_iff, not_and, not_not] at hnot
      rw [hnot hj]
      exact Arena.cell_eq_none_iff.mp hdead
  have hcell : ∀ e, e ≠ k → b.shown e = h.now.arena.shown e := fun e he =>
    Arena.shown_congr (hr.cell e he)
  have hh := hA.toHoldings.without hlevel hle hclear habandoned hl hr.saves
  refine ⟨b, _, hrun, hdead, hh, (hA.toMemory.without hA.toHoldings ?_ ?_).above hle,
    fun hwide => absurd trivial hwide, fun hextra => absurd trivial hextra,
    fun hextra => absurd trivial hextra, fun hextra => absurd trivial hextra⟩
  · intro e he hne j
    refine hcell _ ?_
    rcases origin_since_cases log j h.past.length e with hself | ⟨_, r, hmem, -, hcopy⟩
    · rw [hself]
      exact hne
    · rw [hcopy]
      exact fun heq => hA.copy_not_entity hmem (heq ▸ hk)
  · intro e
    rcases eq_or_ne e k with rfl | hne
    · rw [Arena.stamp_of_none hdead]
      exact Nat.zero_le _
    · rw [Arena.stamp_of_shown (hcell e hne)]
      exact hA.below e

/-- A level that is open has the client that opened it. -/
theorem exists_level {past : List Client} {j : Nat} (hj : j < past.length) :
    ∃ c outer, c :: outer <:+ past ∧ outer.length = j := by
  have hlen : (past.drop (past.length - (j + 1))).length = j + 1 := by
    rw [List.length_drop]
    omega
  obtain ⟨c, outer, hcons⟩ := List.exists_cons_of_length_eq_add_one hlen
  rw [hcons, List.length_cons] at hlen
  exact ⟨c, outer, hcons ▸ List.drop_suffix .., Nat.succ.inj hlen⟩

/-- A level is given up that has a record of an array freed, now or before. -/
theorem abandoned_without {past : List Client} {c : Client} {r : Record} (hs : c :: outer <:+ past)
    (hr : r ∈ log outer.length) (hfreed : r.source ∉ c.entities ∨ r.source = k) :
    Abandoned (outer.length + 1) (past.map (·.without k)) log := by
  have hlen : (outer.map (Client.without · k)).length = outer.length := List.length_map _
  refine fun _ => ⟨c.without k, _, hs.map (Client.without · k), congrArg (· + 1) hlen, r, ?_, ?_⟩
  · rwa [hlen]
  · rw [Client.mem_entities_without]
    exact fun hmem => hfreed.elim (absurd hmem.1) hmem.2

/-- Freeing one of the arrays keeps the account, on terms that may give up more levels. -/
theorem Account.freeArray (hA : Account (.wider base) h l log) (hk : k ∈ h.now.entities) :
    ∃ base' l', Account (.wider base') (h.freeArray k) l' log := by
  obtain ⟨m, hm⟩ : ∃ m, h.past.length = base + m := Nat.exists_eq_add_of_le hA.base_le
  obtain ⟨base', hle, hlevel, hclear, hbase⟩ := exists_clear log k base m fun j hj r hr heq => by
    rw [← hm] at hj
    exact absurd (hA.log_closed hr) (Nat.not_lt_of_le hj)
  rw [← hm] at hlevel
  have habandoned : Abandoned base' (h.past.map (·.without k)) log := fun hne => by
    rcases hbase with rfl | ⟨j, rfl, r, hr, rfl⟩
    · obtain ⟨c, outer, hs, rfl, r, hr, hnot⟩ := hA.abandoned hne
      exact abandoned_without hs hr (.inl hnot) hne
    · obtain ⟨c, outer, hs, rfl⟩ := exists_level (hA.log_closed hr)
      exact abandoned_without hs hr (.inr rfl) hne
  obtain ⟨b, l', hrun, -, hAb⟩ := hA.free_spec hk hlevel hle hclear habandoned
  exact ⟨base', l', History.freeArray_of_ok hrun ▸ hAb⟩

/-! ## Histories with arrays freed -/

/-- Row 0 is not freed. -/
theorem freeArray_zero (hs : h.now.arena.Sound) : h.freeArray 0 = h := by
  obtain ⟨e, he⟩ := hs.live_zero
  have hreserved : e.kind = .reserved := (hs.reserved (Arena.entry_eq_ok_iff.mp he).1).mpr rfl
  have hrun : Arena.free 0 h.now.arena = .error .reservedEntity h.now.arena := by
    unfold Arena.free
    rw [he]
    simp only
    rw [if_pos hreserved]
  unfold History.freeArray
  rw [hrun]

theorem Account.whole_iff (hA : Account terms h l log) (hp : h.past = saved :: outer) :
    h.Whole ↔ ∀ r ∈ log outer.length, r.source ∈ saved.entities := by
  have hlast : (l.openLevels log h.past.length).getLast? = some (l.openLevel log outer.length) := by
    rw [hp, List.length_cons, Ledger.getLast?_openLevels]
  refine ⟨fun hw r hr => hw saved outer hp _ hA.keeps _ hlast r hr, ?_⟩
  intro hlog d rest hp' levels hkeeps v hv r hr
  rw [hp] at hp'
  cases hp'
  rw [hA.keeps.unique hkeeps, hlast] at hv
  cases hv
  exact hlog r hr

/-- A level that is whole is not given up. -/
theorem Account.base_le_of_whole (hA : Account terms h l log) (hw : h.Whole)
    (hp : h.past = saved :: outer) : terms.base ≤ outer.length := by
  rcases Nat.lt_or_ge outer.length terms.base with hlt | hge
  · obtain ⟨c, rest, hs, hlen, r, hr, hnot⟩ := hA.abandoned (Nat.ne_of_gt (Nat.zero_lt_of_lt hlt))
    have hdepth : terms.base ≤ outer.length + 1 := by
      have hle := hA.base_le
      rwa [hp] at hle
    have hrest : rest.length = outer.length := by omega
    rw [hp] at hs
    have hsame : c :: rest = saved :: outer := hs.eq_of_length (by simp [hrest])
    cases hsame
    exact absurd ((hA.whole_iff hp).mp hw r hr) hnot
  · exact hge

theorem History.FreeingRun.account (hr : h.FreeingRun limit) :
    ∃ base l log, Account (.wider base) h l log := by
  induction hr with
  | start => exact ⟨0, _, _, account_start rfl limit⟩
  | call _ may whole ih =>
    obtain ⟨base, l, log, hA⟩ := ih
    obtain ⟨l', log', hkept⟩ := hA.step_of_base
      (fun hcall _ _ hp => hA.base_le_of_whole (whole hcall) hp) (may.mono fun hnot => hnot.elim)
    exact ⟨base, l', log', hkept.account⟩
  | free _ mine ih =>
    obtain ⟨base, l, log, hA⟩ := ih
    rcases hA.entity_or_zero mine with h0 | hmem
    · rw [h0, freeArray_zero hA.describes.sound]
      exact ⟨base, l, log, hA⟩
    · obtain ⟨base', l', hA'⟩ := hA.freeArray hmem
      exact ⟨base', l', log, hA'⟩

theorem freeingRun_arraySaved : History.arraySaved.FreeingRun 1000 := by
  have hmade : ((History.start 1000).step (.newArray 1)).FreeingRun 1000 :=
    .call .start trivial (by simp)
  exact .call hmade trivial (by simp)

/-- A level that was just opened has no records. -/
theorem account_arraySaved : ∃ l, Account (.wider 0) History.arraySaved l fun _ => [] := by
  have hbefore : ((History.start 1000).step (.newArray 1)).past = [] :=
    History.past_step (by simp) (by simp)
  have hrun : ((History.start 1000).step (.newArray 1)).Run False 1000 := .call .start trivial
  obtain ⟨l, log, hA⟩ := hrun.account
  have hlog : log = fun _ => [] := funext fun j => (hA.closed j (hbefore ▸ Nat.zero_le j)).2
  subst hlog
  have hlen := History.length_past_arraySaved
  unfold History.arraySaved at hlen ⊢
  rcases hA.save_spec with ⟨o, b, l', hsave, hAb, -⟩ | ⟨f, b, hsave, -⟩
  · rw [History.step_save_of_ok hsave]
    exact ⟨l', hAb.widen rfl⟩
  · have herr : Arena.Call.save.run ((History.start 1000).step (.newArray 1)).now.arena = .error f b :=
      EStateM.map_of_error hsave
    rw [History.past_step_of_error herr, hbefore] at hlen
    cases hlen

/-- With a level open that is whole, a restore succeeds. The arrays from before the save that are
not freed read as they did at the save, and those made since as they do now. -/
theorem restore_beside_freed {n : UInt32} (hr : h.FreeingRun limit)
    (hdepth : h.now.arena.depth = .ok n) (hopen : 0 < n) (hw : h.Whole) :
    ∃ saved outer new a, h.past = saved :: outer ∧ Arena.restore h.now.arena = .ok () a ∧
      h.now.arrays = new ++ saved.arrays ∧
      (∀ v ∈ saved.arrays, ∀ w, Object.WindowOf (.composite .array v) (.composite .array w) →
        Arena.SameElements w saved.arena a) ∧
      ∀ v ∈ new, ∀ w, Object.WindowOf (.composite .array v) (.composite .array w) →
        Arena.SameElements w h.now.arena a := by
  obtain ⟨base, l, log, hA⟩ := hr.account
  cases hp : h.past with
  | nil =>
    have hzero := hA.depth_eq
    rw [hp, hdepth] at hzero
    cases hzero
    exact absurd hopen (by decide)
  | cons saved outer =>
    have hbase := hA.base_le_of_whole hw hp
    obtain ⟨a, l', hrestore, hc⟩ := hA.restore_spec hp hbase
    obtain ⟨new, hnew, hold, hmade⟩ := hA.elements_restored hp hbase
      (fun r hr => .inr ((hA.whole_iff hp).mp hw r hr)) hc
    exact ⟨saved, outer, new, a, rfl, hrestore, hnew, hold, hmade⟩

namespace History

/-- Two arrays are made and a level opened, and the first array is stored to. -/
def pairStored : History :=
  ((((start 1000).step (.newArray 1)).step (.newArray 1)).step .save).step
    (.arrayPut (.composite .array { size := 1, ent := 1 }) 0 (.integer 7))

/-- The second array is freed in the level. The next one takes its row and is stored to. -/
def pairReused : History :=
  ((pairStored.freeArray 2).step (.newArray 1)).step
    (.arrayPut (.composite .array { size := 1, ent := 2 }) 0 (.integer 8))

theorem arrays_pairStored :
    pairStored.now.arrays = [{ size := 1, ent := 2 }, { size := 1, ent := 1 }] := by
  unfold pairStored
  rw [arrays_step (by simp), arrays_step (by simp)]
  decide +kernel

/-- All of this succeeds, and the first array alone is recorded. -/
theorem arena_pairReused : let a := pairReused.now.arena
    pairReused.now.arrays = [{ size := 1, ent := 2 }, { size := 1, ent := 1 }] ∧
      pairReused.past.map (fun c =>
        (c.arrays, Arena.arrayGet (.composite .array { size := 1, ent := 1 }) 0 c.arena)) =
          [([{ size := 1, ent := 1 }], .ok .null)] ∧
      a.depth = .ok 1 ∧ a.saveStack.toList a = .ok [.save ⟨1, 4⟩] ∧
      (Stack.mk 4).toList a = .ok [.record ⟨1, 5⟩] ∧
      Arena.arrayGet (.composite .array { size := 1, ent := 1 }) 0 a = .ok (.integer 7) ∧
      Arena.arrayGet (.composite .array { size := 1, ent := 2 }) 0 a = .ok (.integer 8) := by
  decide +kernel

theorem freeingRun_pairReused : pairReused.FreeingRun 1000 := by
  have hmade : (((start 1000).step (.newArray 1)).step (.newArray 1)).FreeingRun 1000 :=
    .call (.call .start trivial (by simp)) trivial (by simp)
  have hfirst : pairStored.FreeingRun 1000 := by
    refine .call (.call hmade trivial (by simp)) ⟨{ size := 1, ent := 1 }, ?_, .self⟩ (by simp)
    have harrays := arrays_pairStored
    unfold pairStored at harrays
    rw [arrays_step (by simp)] at harrays
    simp [harrays]
  have hfreed : (pairStored.freeArray 2).FreeingRun 1000 :=
    .free (v := { size := 1, ent := 2 }) hfirst (by simp [arrays_pairStored])
  refine .call (.call hfreed trivial (by simp)) ⟨{ size := 1, ent := 2 }, ?_, .self⟩ (by simp)
  have harrays := arena_pairReused.1
  unfold pairReused at harrays
  rw [arrays_step (by simp)] at harrays
  simp [harrays]

theorem keeps_pairReused : pairReused.now.arena.Keeps [⟨⟨1, 4⟩, [⟨1, 5⟩]⟩] where
  depth := ⟨1, arena_pairReused.2.2.1, rfl⟩
  level _ := arena_pairReused.2.2.2.1
  record _ hv := List.mem_singleton.mp hv ▸ arena_pairReused.2.2.2.2.1

end History

/-- The array made in the level has the row of the one freed in it, and keeps its element. The one
that is left of the two made before is restored. -/
theorem restore_beside_freed_reused :
    let first : Object := .composite .array { size := 1, ent := 1 }
    let second : Object := .composite .array { size := 1, ent := 2 }
    ∃ saved a, History.pairReused.past = [saved] ∧ saved.arrays = [{ size := 1, ent := 1 }] ∧
      History.pairStored.now.arrays = [{ size := 1, ent := 2 }, { size := 1, ent := 1 }] ∧
      History.pairReused.now.arrays = [{ size := 1, ent := 2 }, { size := 1, ent := 1 }] ∧
      Arena.restore History.pairReused.now.arena = .ok () a ∧
      Arena.arrayGet first 0 saved.arena = .ok .null ∧
      Arena.arrayGet first 0 History.pairReused.now.arena = .ok (.integer 7) ∧
      Arena.arrayGet first 0 a = .ok .null ∧ Arena.arrayGet second 0 a = .ok (.integer 8) := by
  intro first second
  obtain ⟨harrays, hpast, hdepth, -, -, hseven, height⟩ := History.arena_pairReused
  obtain ⟨saved, hp, heq⟩ := List.map_eq_singleton_iff.mp hpast
  obtain ⟨hsaved, hnull⟩ := Prod.mk.inj heq
  have hw : History.pairReused.Whole := by
    intro c outer hc levels hkeeps v hv q hq
    cases hkeeps.unique History.keeps_pairReused
    cases hv
    cases hp.symm.trans hc
    rw [List.mem_singleton.mp hq, Client.entities, hsaved]
    decide
  have hopen : (0 : UInt32) < 1 := by decide
  obtain ⟨saved', outer, new, a, hp', hrestore, hnow, hold, hmade⟩ :=
    restore_beside_freed History.freeingRun_pairReused hdepth hopen hw
  cases hp.symm.trans hp'
  rw [harrays, hsaved, ← List.singleton_append] at hnow
  obtain rfl := List.append_cancel_right hnow
  have hfirst := hold { size := 1, ent := 1 } (by simp [hsaved]) _ .self
  have hsecond := hmade { size := 1, ent := 2 } (List.mem_singleton_self _) _ .self
  exact ⟨saved, a, hp, hsaved, History.arrays_pairStored, harrays, hrestore, hnull, hseven,
    (hfirst.eq 0).trans hnull, (hsecond.eq 0).trans height⟩

/-! ## A level with a record of an array freed -/

/-- If the entity that the last record of the level is about is not there, the restore fails. -/
theorem Holdings.restore_fails (hh : Holdings base h l log) (hp : h.past = saved :: outer)
    {L : List Record} {r : Record} (hlog : log outer.length = L ++ [r])
    (hdead : h.now.arena.cell r.source = none) : ∃ f b, Arena.restore h.now.arena = .error f b := by
  have hpos : UInt32.ofNat h.past.length ≠ 0 := fun h0 => by
    have hdepth := hh.toNat_depth
    rw [h0, hp, UInt32.toNat_zero] at hdepth
    cases hdepth
  have hl := hh.latest hp
  rw [hlog, List.map_append, List.map_singleton] at hl
  have hspoiled : h.now.arena.Spoiled (.record r) := fun q hq => by
    cases hq
    exact .inl (Arena.cell_eq_none_iff.mp hdead)
  obtain ⟨f, b, hrun, -⟩ := hl.restore_spoiled hh.describes.sound hspoiled hh.depth_eq hpos
  exact ⟨f, b, hrun⟩

theorem freeingRun_arrayStored : History.arrayStored.FreeingRun 1000 := by
  have hmine : History.arraySaved.now.HasArray (.composite .array { size := 1, ent := 1 }) := by
    refine ⟨{ size := 1, ent := 1 }, ?_, .self⟩
    rw [History.arrays_arraySaved]
    exact List.mem_singleton_self _
  unfold History.arrayStored
  exact .call freeingRun_arraySaved hmine (by simp)

theorem mem_arrays_arrayStored :
    ({ size := 1, ent := 1 } : View) ∈ History.arrayStored.now.arrays := by
  rw [History.arrays_arrayStored]
  exact List.mem_singleton_self _

theorem Account.recorded_arrayStored (hA : Account (.plain False) History.arrayStored l log)
    (hp : History.arrayStored.past = [saved]) : log 0 = [⟨1, 4⟩] := by
  have hlevels := hA.keeps.unique History.keeps_arrayStored
  rw [hp] at hlevels
  exact (congrArg OpenLevel.records (List.singleton_inj.mp hlevels)).symm

/-- An array made before the save is stored to in the level and then freed. -/
theorem freed_array_not_restored :
    (History.arrayStored.freeArray 1).FreeingRun 1000 ∧
      (History.arrayStored.freeArray 1).now.arena.depth = .ok 1 ∧
      ∃ f b, Arena.restore (History.arrayStored.freeArray 1).now.arena = .error f b := by
  obtain ⟨saved, hpast, -⟩ := History.past_arraySaved
  have hp : History.arrayStored.past = [saved] := History.past_arrayStored.trans hpast
  have hrun : History.arrayStored.Run False 1000 := History.run_arrayStored
  obtain ⟨l, log, hA⟩ := hrun.account
  have hlog := hA.recorded_arrayStored hp
  have hr : ⟨1, 4⟩ ∈ log 0 := hlog ▸ List.mem_singleton_self _
  have hk : (1 : Handle) ∈ History.arrayStored.now.entities :=
    Client.mem_entities mem_arrays_arrayStored (by decide)
  have hlevel : 1 ≤ History.arrayStored.past.length := by
    rw [hp]
    exact Nat.le_refl _
  have hclear : ∀ j, 1 ≤ j → ∀ q ∈ log j, q.source ≠ 1 := fun j hj q hq => by
    have hlt := hA.log_closed hq
    rw [hp] at hlt
    exact absurd hj (Nat.not_le_of_lt hlt)
  have habandoned : Abandoned 1 (History.arrayStored.past.map (·.without 1)) log :=
    abandoned_without (innermost hp) hr (.inr rfl)
  obtain ⟨b, l', hfree, hdead, hAb⟩ :=
    (hA.widen rfl).free_spec hk hlevel (Nat.zero_le _) hclear habandoned
  have hfreed := History.freeArray_of_ok hfree
  have hpb : (History.arrayStored.freed b 1).past = [saved.without 1] := by
    unfold History.freed
    rw [hp]
    rfl
  have hfreeing : (History.arrayStored.freeArray 1).FreeingRun 1000 :=
    .free (v := { size := 1, ent := 1 }) freeingRun_arrayStored mem_arrays_arrayStored
  refine ⟨hfreeing, ?_⟩
  rw [hfreed]
  refine ⟨?_, hAb.restore_fails (L := []) hpb hlog hdead⟩
  rw [hAb.depth_eq, hpb]
  rfl

end BankedMemory
