import BankedMemory.Proofs.Checkpoint.Quiet

/-!
# Opening a level

`save` makes the save stack on first use, a stack for the level's records, and puts the level on the
save stack. If one of these fails no level is opened, and every row shows what it showed.
-/

namespace BankedMemory

variable {terms : Terms} {base : Nat} {h : History} {l l' : Ledger} {log : Nat → List Record}
  {b : Arena} {k : Nat} {e r : Handle}

/-! ## The account with a level more -/

/-- What changed between a client's arena and the ledger of one with a level more. -/
structure Opened (h : History) (l : Ledger) (b : Arena) (l' : Ledger) (r : Handle) : Prop where
  describes : l'.Describes b
  held : ∀ o : Owner, o ≠ .saves → o ≠ .records h.past.length → l'.held o = l.held o
  values : ∀ o : Owner, o ≠ .saves → o ≠ .records h.past.length → l'.values o = l.values o
  records : l'.held (.records h.past.length) = [r]
  unused : l'.values (.records h.past.length) = []
  levels : l'.values .saves = l.values .saves ++ [.save ⟨UInt32.ofNat (h.past.length + 1), r⟩]
  saves : b.saves = (l'.held .saves).head?
  grown : ∀ k ∈ l.held .saves, k ∈ l'.held .saves
  opened : l'.held .saves ≠ []
  cell : ∀ k, b.Live k → (∃ o : Owner, o.IsStack ∧ k ∈ l'.held o) ∨ b.cell k = h.now.arena.cell k

theorem Holdings.spared_now (hh : Holdings base h l log) (hk : e ∉ l.held .saves) :
    h.now.arena.Live e ∧ ¬h.now.Owns e ↔ e = 0 ∨
      ∃ j < h.past.length, e ∈ l.held (.records j) ∨ e ∈ l.held (.copies j) := by
  rw [hh.owns_iff, hh.describes.live]
  constructor
  · rintro ⟨rfl | ⟨o, ho⟩, hnot⟩
    · exact .inl rfl
    rw [not_or] at hnot
    right
    cases o with
    | array => exact absurd ho hnot.1
    | stack s => exact absurd ⟨s, ho⟩ hnot.2
    | saves => exact absurd ho hk
    | records j =>
      refine ⟨j, Nat.lt_of_not_le fun hj => ?_, .inl ho⟩
      rw [(hh.closed j hj).1] at ho
      cases ho
    | copies j =>
      refine ⟨j, ?_, .inr ho⟩
      rw [hh.copies] at ho
      obtain ⟨q, hq, -⟩ := List.mem_map.mp ho
      exact hh.log_closed hq
  · rintro (rfl | ⟨j, -, hj⟩)
    · refine ⟨.inl rfl, ?_⟩
      rintro (h0 | ⟨s, h0⟩)
      · exact hh.describes.zero _ h0
      · exact hh.describes.zero _ h0
    · refine ⟨.inr (hj.elim (fun hj => ⟨_, hj⟩) fun hj => ⟨_, hj⟩), ?_⟩
      rintro (hown | ⟨s, hown⟩) <;> rcases hj with hj | hj <;>
        exact hh.describes.not_mem_of_ne hj (by simp) hown

/-- Nothing else of the ledger of the levels below has changed. -/
theorem Opened.held_records (ho : Opened h l b l' r) (hk : k < h.past.length) :
    l'.held (.records k) = l.held (.records k) :=
  ho.held _ (by simp) (by simpa using Nat.ne_of_lt hk)

theorem Opened.holdings (ho : Opened h l b l' r) (hh : Holdings base h l log)
    (hdepth : h.past.length + 1 ≤ Mark.maxLevel.toNat) :
    Holdings base ⟨⟨b, h.now.arrays, h.now.liveStacks⟩, h.now :: h.past⟩ l' log where
  describes := ho.describes
  array := (ho.held _ (by simp) (by simp)).trans hh.array
  root := hh.root
  stack s hs := by
    rw [ho.held _ (by simp) (by simp)]
    exact hh.stack s hs
  stackless s hs := (ho.held _ (by simp) (by simp)).trans (hh.stackless s hs)
  liveStacks_nodup := hh.liveStacks_nodup
  saves := ho.saves
  saveless hnil := absurd hnil ho.opened
  depth_le := hdepth
  levels := by
    rw [ho.levels, hh.levels, List.length_cons, List.range_succ, List.map_append]
    refine congrArg₂ _ (List.map_congr_left fun k hk => ?_) ?_
    · unfold Ledger.level
      rw [ho.held_records (List.mem_range.mp hk)]
    · simp only [List.map_cons, List.map_nil, Ledger.level, ho.records, List.headD_cons]
  opened k hk := by
    rw [List.length_cons] at hk
    rcases Nat.lt_or_ge k h.past.length with hlt | hge
    · rw [ho.held_records hlt, ho.values _ (by simp) (by simpa using Nat.ne_of_lt hlt)]
      exact hh.opened k hlt
    · obtain rfl : k = h.past.length := by omega
      rw [ho.records, ho.unused, (hh.closed _ (Nat.le_refl _)).2]
      exact ⟨by simp, rfl⟩
  closed k hk := by
    rw [List.length_cons] at hk
    rw [ho.held _ (by simp) (by simp; omega)]
    exact hh.closed k (by omega)
  copies k := (ho.held _ (by simp) (by simp)).trans (hh.copies k)
  older := by
    refine List.pairwise_cons.mpr ⟨fun c hc => ?_, hh.older⟩
    rcases List.mem_cons.mp hc with rfl | hc
    · exact List.suffix_refl _
    · exact (List.pairwise_cons.mp hh.older).1 c hc
  base_le := Nat.le_succ_of_le hh.base_le
  abandoned hne := by
    obtain ⟨c, outer, hs, hrest⟩ := hh.abandoned hne
    exact ⟨c, outer, hs.trans (List.suffix_cons ..), hrest⟩
  source := hh.source

/-- The new level has no records yet, and spares all that is not the client's. -/
theorem Opened.enclosed (ho : Opened h l b l' r) (hh : Holdings base h l log)
    (he : Enclosed h l log) {now : Client} : Enclosed ⟨now, h.now :: h.past⟩ l' log where
  within c outer hs q hq := by
    rcases List.suffix_cons_iff.mp hs with heq | hs
    · cases heq
      rw [(hh.closed _ (Nat.le_refl _)).2] at hq
      cases hq
    · exact he.within c outer hs q hq
  spared c outer hs k hk := by
    have hk' : k ∉ l.held .saves := fun hk' => hk (ho.grown k hk')
    have hold : c.arena.Live k ∧ ¬c.Owns k ↔ k = 0 ∨
        ∃ j < outer.length, k ∈ l.held (.records j) ∨ k ∈ l.held (.copies j) := by
      rcases List.suffix_cons_iff.mp hs with heq | hs
      · cases heq
        exact hh.spared_now hk'
      · exact he.spared c outer hs k hk'
    have hlen : outer.length ≤ h.past.length := Nat.le_of_lt_succ (depth_of_suffix hs)
    rw [hold]
    refine or_congr_right (exists_congr fun j => and_congr_right fun hj => ?_)
    rw [ho.held_records (by omega), ho.held (.copies j) (by simp) (by simp)]

/-- A level without records looks where the one before it does. -/
theorem Holdings.since_open (hh : Holdings base h l log) (k : Nat) :
    since log k (h.past.length + 1) = since log k h.past.length := by
  rcases Nat.lt_or_ge h.past.length k with hlt | hge
  · rw [since_eq_nil hlt, since_eq_nil (Nat.le_of_lt hlt)]
  · rw [since_succ hge, (hh.closed _ (Nat.le_refl _)).2, List.append_nil]

/-- Rows that hold no segment show what they showed. -/
theorem Opened.shown_eq (ho : Opened h l b l' r) (hlive : b.Live e)
    (hnot : ∀ o : Owner, o.IsStack → e ∉ l'.held o) : b.shown e = h.now.arena.shown e := by
  rcases ho.cell e hlive with ⟨o, hs, hk⟩ | hc
  · exact absurd hk (hnot o hs)
  · exact Arena.shown_congr hc

/-- Where the levels look for an array is no segment, so it shows what it showed. -/
theorem Opened.shown_origin (ho : Opened h l b l' r) (hh : Holdings base h l log)
    (he : e ∈ h.now.entities) (k : Nat) :
    b.shown (origin (since log k h.past.length) e) =
      h.now.arena.shown (origin (since log k h.past.length) e) := by
  obtain ⟨hlive, hnot⟩ := hh.not_segment ho.describes (ho.held _ (by simp) (by simp))
    (fun j => ho.held _ (by simp) (by simp)) he k h.past.length
  exact ho.shown_eq hlive hnot

theorem Opened.arraysKept (ho : Opened h l b l' r) (hh : Holdings base h l log) :
    h.now.ArraysKept b := by
  intro e he i o hshow
  have hsame := ho.shown_origin hh he h.past.length
  rw [since_eq_nil (Nat.le_refl _), origin_nil] at hsame
  exact hshow.of_shown hsame

theorem Opened.memory (ho : Opened h l b l' r) (hh : Holdings base h l log) (hm : Memory base h log) :
    Memory base ⟨⟨b, h.now.arrays, h.now.liveStacks⟩, h.now :: h.past⟩ log := by
  have hsame : ∀ e ∈ h.now.entities, ∀ k, b.shown (origin (since log k h.past.length) e) =
      h.now.arena.shown (origin (since log k h.past.length) e) := fun e he k =>
    ho.shown_origin hh he k
  have hbelow := hm.stamp_le ho.describes ho.cell
  have hold := hm.transport hh hsame hbelow h.now.liveStacks
  refine ⟨?_, ?_, ?_, fun k => Nat.le_succ_of_le (hbelow k)⟩
  · intro k hbase hk v hv i hi
    rw [List.length_cons] at hk ⊢
    simp only [hh.since_open]
    rcases Nat.lt_or_ge h.past.length k with hlt | hge
    · -- no level is open beyond the new one
      have hread := hold.readable h.past.length hh.base_le (Nat.le_refl _) v hv i hi
      have hnone : since log k h.past.length = [] := since_eq_nil (Nat.le_of_lt hlt)
      rwa [since_eq_nil (Nat.le_refl _), ← hnone] at hread
    · exact hold.readable k hbase hge v hv i hi
  · intro c outer hs hbase v hv i hi
    rw [List.length_cons]
    simp only [hh.since_open]
    rcases List.suffix_cons_iff.mp hs with heq | hs
    · cases heq
      obtain ⟨o, hshow⟩ := hm.readable h.past.length hh.base_le (Nat.le_refl _) v hv i hi
      have hsame' := hsame v.ent (Client.mem_entities hv (size_ne_zero hi)) h.past.length
      rw [since_eq_nil (Nat.le_refl _), origin_nil] at hshow hsame' ⊢
      exact ⟨o, hshow.readSlot hh.describes.sound, hshow.of_shown hsame'⟩
    · exact hold.kept c outer hs hbase v hv i hi
  · intro c outer hs hbase e he
    rw [List.length_cons]
    simp only [hh.since_open]
    rcases List.suffix_cons_iff.mp hs with heq | hs
    · cases heq
      rw [(hh.closed _ (Nat.le_refl _)).2]
      refine iff_of_false (Nat.not_lt.mpr (hbelow _)) ?_
      rintro (⟨q, hq, -⟩ | hnot)
      · cases hq
      · exact hnot he
    · exact hold.stamped c outer hs hbase e he

theorem Opened.account (ho : Opened h l b l' r) (hA : Account terms h l log)
    (hdepth : h.past.length + 1 ≤ Mark.maxLevel.toNat) :
    Account terms ⟨⟨b, h.now.arrays, h.now.liveStacks⟩, h.now :: h.past⟩ l' log where
  toHoldings := ho.holdings hA.toHoldings hdepth
  toMemory := ho.memory hA.toHoldings hA.toMemory
  enclosed hwide := ho.enclosed hA.toHoldings (hA.enclosed hwide)
  once := hA.once
  sourced := hA.sourced
  unstamped hextra := by
    have hshown := ho.shown_eq ho.describes.sound.live_zero fun o _ => ho.describes.zero o
    rw [Arena.stamp_of_shown hshown]
    exact hA.unstamped hextra

/-! ## The calls -/

/-- The arena has a save stack where it had none, and nothing else has changed. -/
structure Arena.SavesMade (a b : Arena) (r : Handle) : Prop where
  before : a.saves = none
  after : b.saves = some r
  limit : b.limit = a.limit
  new : a.cell r = none
  cell : ∀ k, k ≠ r → b.cell k = a.cell k

/-- The save stack is there, and nothing else has happened. -/
structure Prepared (terms : Terms) (h : History) (l : Ledger) (log : Nat → List Record) (a : Arena)
    (l' : Ledger) : Prop where
  account : Account terms ⟨⟨a, h.now.arrays, h.now.liveStacks⟩, h.past⟩ l' log
  held : ∀ o : Owner, o ≠ .saves → l'.held o = l.held o
  values : l'.values = l.values
  grown : ∀ k ∈ l.held .saves, k ∈ l'.held .saves
  opened : l'.held .saves ≠ []
  cell : ∀ k, a.Live k → (∃ o : Owner, o.IsStack ∧ k ∈ l'.held o) ∨ a.cell k = h.now.arena.cell k
  change : a = h.now.arena ∨ ∃ r, h.now.arena.SavesMade a r

/-- The save stack is made. -/
theorem Account.prepared_new (hA : Account terms h l log) (hnone : l.held .saves = [])
    (hdead : h.now.arena.cell r = none) (t : Arena.Touches {r} h.now.arena b)
    (hl : (l.set .saves [r] []).Describes b) :
    Prepared terms h l log { b with saves := some r } (l.set .saves [r] []) := by
  have hcell : ∀ k, b.Live k → (∃ o : Owner, o.IsStack ∧ k ∈ (l.set .saves [r] []).held o) ∨
      b.cell k = h.now.arena.cell k := fun k _ => by
    rcases eq_or_ne k r with rfl | hne
    · refine .inl ⟨.saves, trivial, ?_⟩
      rw [Ledger.held_set_self]
      exact List.mem_singleton_self k
    · exact .inr (t.cell k hne)
  have hvalues : (l.set .saves [r] []).values = l.values := by
    have hempty := hA.no_values hnone
    rw [← hempty]
    exact Function.update_eq_self ..
  have hgrown : ∀ k ∈ l.held .saves, k ∈ (l.set .saves [r] []).held .saves := fun k hk => by
    rw [hnone] at hk
    cases hk
  have hdescribes : (l.set .saves [r] []).Describes { b with saves := some r } :=
    hl.frame (hl.sound.with_saves _) (fun _ => Iff.rfl) fun _ _ _ _ => rfl
  refine ⟨hA.reframe hdescribes (fun o _ ho => Ledger.held_set_ne ho) (fun _ => by rw [hvalues])
    (by rw [hvalues]) hcell ?_ ?_ hA.liveStacks_nodup ?_ hgrown, fun o ho => Ledger.held_set_ne ho,
    hvalues, hgrown, ?_, hcell, .inr ⟨r, ?_, rfl, t.limit, hdead, fun k hk => t.cell k hk⟩⟩
  · intro s hs
    rw [Ledger.held_set_ne (by simp)]
    exact hA.stack s hs
  · intro s hs
    rw [Ledger.held_set_ne (by simp)]
    exact hA.stackless s hs
  · rw [Ledger.held_set_self]
    rfl
  · rw [Ledger.held_set_self]
    simp
  · rw [hA.saves, hnone]
    rfl

theorem Account.openSaveStack_spec (hA : Account terms h l log) :
    (∃ a l', Arena.openSaveStack h.now.arena = .ok () a ∧ Prepared terms h l log a l') ∨
    h.past = [] ∧ ∃ f, Arena.openSaveStack h.now.arena = .error f h.now.arena ∧
      h.now.arena.OutOfStorage f := by
  unfold Arena.openSaveStack
  rw [ArenaM.reading_bind (f := fun a => .ok a.saves.isNone) rfl, hA.saves]
  cases hheld : l.held .saves with
  | cons r rest =>
    exact .inl ⟨h.now.arena, l, rfl, hA, fun _ _ => rfl, rfl, fun _ hk => hk, by simp [hheld],
      fun _ _ => .inr rfl, .inl rfl⟩
  | nil =>
    have hnone : ([] : List Handle).head?.isNone = true := rfl
    rw [if_pos hnone]
    rcases hA.describes.newStack_spec hheld with ⟨r, b, hrun, hdead, t, hl⟩ | ⟨f, hrun, hf⟩
    · refine .inl ⟨{ b with saves := some r }, _, ?_, hA.prepared_new hheld hdead t hl⟩
      rw [EStateM.bind_of_ok hrun]
      rfl
    · exact .inr ⟨hA.saveless hheld, f, EStateM.bind_of_error hrun, hf⟩

namespace Prepared

variable {a c : Arena} {rows : List Handle} {new : Handle}
  (hp : Prepared terms h l log a l')

include hp

/-- The level is on the save stack, with `new` for its records. -/
theorem open_level (hnew : Arena.Touches {new} a b)
    (hpush : Arena.Touches {k | k ∈ rows} b c) (hhead : rows.head? = (l'.held .saves).head?)
    (hkeep : ∀ k ∈ l'.held .saves, k ∈ rows)
    (hl : ((l'.set (.records h.past.length) [new] []).set .saves rows
      (l'.values .saves ++ [.save ⟨UInt32.ofNat (h.past.length + 1), new⟩])).Describes c) :
    Opened h l c ((l'.set (.records h.past.length) [new] []).set .saves rows
      (l'.values .saves ++ [.save ⟨UInt32.ofNat (h.past.length + 1), new⟩])) new where
  describes := hl
  held o h1 h2 := by rw [Ledger.held_set_ne h1, Ledger.held_set_ne h2, hp.held o h1]
  values o h1 h2 := by rw [Ledger.values_set_ne h1, Ledger.values_set_ne h2, hp.values]
  records := by rw [Ledger.held_set_ne (by simp), Ledger.held_set_self]
  unused := by rw [Ledger.values_set_ne (by simp), Ledger.values_set_self]
  levels := by rw [Ledger.values_set_self, hp.values]
  saves := by rw [Ledger.held_set_self, hhead, hpush.saves, hnew.saves, hp.account.saves]
  grown k hk := by
    rw [Ledger.held_set_self]
    exact hkeep k (hp.grown k hk)
  opened := by
    rw [Ledger.held_set_self]
    rintro rfl
    exact hp.opened (List.head?_eq_none_iff.mp hhead.symm)
  cell k hlive := by
    by_cases hk : k ∈ rows
    · exact .inl ⟨.saves, trivial, by rwa [Ledger.held_set_self]⟩
    rcases eq_or_ne k new with rfl | hne
    · refine .inl ⟨.records h.past.length, trivial, ?_⟩
      rw [Ledger.held_set_ne (by simp), Ledger.held_set_self]
      exact List.mem_singleton_self k
    have hsame : c.cell k = a.cell k := (hpush.cell k hk).trans (hnew.cell k hne)
    have hbefore : a.Live k := by
      rw [Arena.live_iff_cell, ← hsame, ← Arena.live_iff_cell]
      exact hlive
    rw [hsame]
    refine (hp.cell k hbefore).imp_left ?_
    rintro ⟨o, ho, hmem⟩
    have hsave : o ≠ .saves := by
      rintro rfl
      exact hk (hkeep k hmem)
    have hrec : o ≠ .records h.past.length := by
      rintro rfl
      rw [(hp.account.closed _ (Nat.le_refl _)).1] at hmem
      cases hmem
    exact ⟨o, ho, by rwa [Ledger.held_set_ne hsave, Ledger.held_set_ne hrec]⟩

/-- The row taken for the records is given back. -/
theorem give_back (hdead : a.cell new = none) (hnew : Arena.Touches {new} a b)
    (hl : (l'.set (.records h.past.length) [new] []).Describes b) :
    ∃ c, (Stack.mk new).free b = .ok () c ∧
      Account terms ⟨⟨c, h.now.arrays, h.now.liveStacks⟩, h.past⟩ l' log ∧
      Arena.Touches ∅ a c := by
  have hd : ((l'.set (.records h.past.length) [new] []).held (.records h.past.length)).head? =
      some new := by
    rw [Ledger.held_set_self]
    rfl
  have hlaid := hl.laid_of_head (o := .records h.past.length) (s := ⟨new⟩) trivial hd
  rw [Ledger.held_set_self] at hlaid
  obtain ⟨c, hfree, hrc, hgone⟩ := hlaid.free_spec hl.sound rfl
  have hsame : ∀ k, c.cell k = a.cell k := fun k => by
    rcases eq_or_ne k new with rfl | hne
    · rw [hgone k (List.mem_singleton_self k), hdead]
    · rw [hrc.cell k (by simpa using hne), hnew.cell k hne]
  have hlc : l'.Describes c := hp.account.describes.frame hrc.sound
    (fun k => by rw [Arena.live_iff_cell, Arena.live_iff_cell, hsame]) fun _ _ k _ => hsame k
  exact ⟨c, hfree, hp.account.quiet hlc (fun k _ => .inr (hsame k)) (hrc.saves.trans hnew.saves),
    hrc.sound, fun k _ => hsame k, hrc.saves.trans hnew.saves, hrc.limit.trans hnew.limit⟩

/-- What has been done when the level cannot be opened after all. -/
theorem undone (t : Arena.Touches ∅ a c) :
    Arena.Touches ∅ h.now.arena c ∨ ∃ r, h.now.arena.SavesMade c r := by
  rcases hp.change with rfl | ⟨r, hmade⟩
  · exact .inl t
  · exact .inr ⟨r, hmade.before, t.saves.trans hmade.after, t.limit.trans hmade.limit, hmade.new,
      fun k hk => (t.cell k id).trans (hmade.cell k hk)⟩

theorem limit : a.limit = h.now.arena.limit := by
  rcases hp.change with rfl | ⟨r, hmade⟩
  · rfl
  · exact hmade.limit

end Prepared

/-- Why no level was opened: there are as many as a mark can number, or no storage is left. -/
def SaveFails (h : History) (f : Fault) : Prop :=
  f = .tooManyLevels ∧ h.past.length = Mark.maxLevel.toNat ∨
    h.now.arena.OutOfStorage f ∧ h.past.length < Mark.maxLevel.toNat

/-- A level is opened, or the save fails. Unless the program stops there, what it had begun is taken
back, but for the save stack it may have made. -/
theorem Account.save_spec (hA : Account terms h l log) :
    (∃ r b l', Arena.save h.now.arena = .ok (.save ⟨UInt32.ofNat (h.past.length + 1), r⟩) b ∧
      Account terms ⟨⟨b, h.now.arrays, h.now.liveStacks⟩, h.now :: h.past⟩ l' log ∧
      l'.SameStacks l ∧ h.now.ArraysKept b) ∨
    ∃ f b, Arena.save h.now.arena = .error f b ∧ SaveFails h f ∧ (¬f.stops → ∃ l',
      Account terms ⟨⟨b, h.now.arrays, h.now.liveStacks⟩, h.past⟩ l' log ∧ l'.SameStacks l ∧
      (Arena.Touches ∅ h.now.arena b ∨ ∃ r, h.now.arena.SavesMade b r)) := by
  unfold Arena.save
  rcases hA.openSaveStack_spec with ⟨a, l₁, hrun, hp⟩ | ⟨hnone, f, hrun, hf⟩
  · have hstacks : l₁.SameStacks l := fun s => ⟨hp.held _ (by simp), by rw [hp.values]⟩
    have hmax := hA.depth_le
    rw [EStateM.bind_of_ok hrun, ArenaM.reading_bind hp.account.nextLevel_eq]
    simp only
    by_cases hdeep : Mark.maxLevel < UInt32.ofNat (h.past.length + 1)
    · have hfull : h.past.length = Mark.maxLevel.toNat := by
        rw [UInt32.lt_iff_toNat_lt, UInt32.toNat_ofNat'] at hdeep
        simp only [Mark.maxLevel, UInt32.reduceToNat] at hdeep hmax ⊢
        omega
      rw [if_pos hdeep]
      exact .inr ⟨.tooManyLevels, a, rfl, .inl ⟨rfl, hfull⟩, fun _ => ⟨l₁, hp.account, hstacks,
        hp.undone (.refl hp.account.describes.sound)⟩⟩
    rw [if_neg hdeep]
    have hdepth : h.past.length + 1 ≤ Mark.maxLevel.toNat := by
      rw [UInt32.not_lt, UInt32.le_iff_toNat_le, UInt32.toNat_ofNat'] at hdeep
      simp only [Mark.maxLevel, UInt32.reduceToNat] at hdeep hmax ⊢
      omega
    rcases hp.account.describes.newStack_spec (hp.account.closed _ (Nat.le_refl _)).1 with
      ⟨r, b, hnew, hdead, t, hl⟩ | ⟨f, hnew, hf⟩
    · have hstack : b.saveStack = a.saveStack := by
        unfold Arena.saveStack
        rw [t.saves]
      have hd : ((l₁.set (.records h.past.length) [r] []).held .saves).head? =
          some a.saveStack.handle := by
        rw [Ledger.held_set_ne (by simp)]
        exact hp.account.saves_head hp.opened
      rw [EStateM.bind_of_ok hnew, ArenaM.reading_bind (f := fun a => .ok a.saveStack) rfl, hstack]
      rcases hl.push_spec (o := .saves) trivial hd (.save ⟨UInt32.ofNat (h.past.length + 1), r⟩) with
        ⟨rows, c, hpush, hhead, hkeep, -, tc, hlc⟩ | ⟨f, hpush, hf, -⟩
      · rw [Ledger.values_set_ne (by simp)] at hlc
        rw [Ledger.held_set_ne (by simp)] at hkeep hd
        have ho := hp.open_level t tc (hhead.trans hd.symm) hkeep hlc
        refine .inl ⟨r, c, _, ?_, ho.account hA hdepth,
          fun s => ⟨ho.held _ (by simp) (by simp), ho.values _ (by simp) (by simp)⟩,
          ho.arraysKept hA.toHoldings⟩
        rw [EStateM.bind_of_ok (ArenaM.orUndo_of_ok hpush)]
        rfl
      · have hfails : SaveFails h f := .inr ⟨hf.congr (t.limit.trans hp.limit), hdepth⟩
        by_cases hstop : f.stops
        · exact .inr ⟨f, b, EStateM.bind_of_error (ArenaM.orUndo_of_stop hpush hstop), hfails,
            fun hgoes => absurd hstop hgoes⟩
        · obtain ⟨c, hfree, hAc, tc⟩ := hp.give_back hdead t hl
          exact .inr ⟨f, c, EStateM.bind_of_error (ArenaM.orUndo_of_error hpush hstop hfree), hfails,
            fun _ => ⟨l₁, hAc, hstacks, hp.undone tc⟩⟩
    · exact .inr ⟨f, a, EStateM.bind_of_error hnew, .inr ⟨hf.congr hp.limit, hdepth⟩,
        fun _ => ⟨l₁, hp.account, hstacks, hp.undone (.refl hp.account.describes.sound)⟩⟩
  · refine .inr ⟨f, h.now.arena, EStateM.bind_of_error hrun, .inr ⟨hf, ?_⟩, fun _ => ⟨l, hA, .refl l,
      .inl (.refl hA.describes.sound)⟩⟩
    rw [hnone]
    exact Nat.zero_lt_of_lt (Nat.lt_succ_self 4094)

end BankedMemory
