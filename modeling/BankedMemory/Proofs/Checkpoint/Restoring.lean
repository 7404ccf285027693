import BankedMemory.Proofs.Arena.Lowering
import BankedMemory.Proofs.Checkpoint.Quiet
import BankedMemory.Proofs.Checkpoint.Undoing

/-!
# Closing a level

`restore` takes the level off the save stack, undoes its records, gives its stack of records back
and lowers the stamps that are too high now. With a level open none of this can fail, and what an
array shows afterwards is what `origin` finds for it in the records of the level.
-/

namespace BankedMemory

variable {terms : Terms} {base : Nat} {h : History} {l l' : Ledger} {log : Nat → List Record}
  {a b : Arena} {k m : Nat} {e : Handle} {level : UInt32} {d : Client} {rest : List Client}

/-! ## Lowered stamps -/

section Lowered

variable (hc : b.cell e =
  (a.cell e).map fun x => { x with mark := Arena.lowerMark level x.mark })

include hc

theorem Arena.stamp_lowered : b.stamp e = min (a.stamp e) level.toNat := by
  unfold stamp
  rw [hc]
  cases a.cell e with
  | none => simp
  | some x =>
    simp only [Option.map_some, topLevel_lowerMark, UInt32.toNat_min]

theorem Arena.Shows.lowered {i : Nat} {o : Object} (hs : a.Shows e i o) : b.Shows e i o := by
  obtain ⟨x, hx, hi, ho⟩ := hs
  rw [hx, Option.map_some] at hc
  exact ⟨_, hc, hi, ho⟩

end Lowered

/-! ## The account with a level less -/

/-- The records without those of level `m`. -/
def forgotten (log : Nat → List Record) (m : Nat) : Nat → List Record := Function.update log m []

theorem forgotten_self : forgotten log m m = [] := Function.update_self ..

theorem forgotten_ne (hk : k ≠ m) : forgotten log m k = log k := Function.update_of_ne hk ..

/-- What changed between a client's arena and the ledger of one without level `m`. -/
structure Closed (h : History) (l : Ledger) (log : Nat → List Record) (m : Nat) (b : Arena)
    (l' : Ledger) : Prop where
  describes : l'.Describes b
  held : ∀ o : Owner, o ≠ .records m → o ≠ .copies m → l'.held o = l.held o
  values : ∀ o : Owner, o ≠ .saves → o ≠ .records m → l'.values o = l.values o
  records : l'.held (.records m) = []
  copies : l'.held (.copies m) = []
  levels : l'.values .saves = (List.range m).map l.level
  change : Arena.Rewrites Set.univ h.now.arena b
  shows : ∀ k, (∀ o : Owner, o.IsStack → k ∉ l.held o) → k ∉ l.held (.copies m) →
    ∀ i o, h.now.arena.Shows (origin (log m) k) i o → b.Shows k i o
  stamp : ∀ k, (∀ o : Owner, o.IsStack → k ∉ l.held o) → k ∉ l.held (.copies m) →
    b.stamp k = min (h.now.arena.stamp (origin (log m) k)) m
  below : ∀ k, b.stamp k ≤ m

section Levels

variable (hc : Closed h l log rest.length b l')

include hc

/-- The levels below keep their records. -/
theorem Closed.held_records (hk : k ≠ rest.length) : l'.held (.records k) = l.held (.records k) :=
  hc.held _ (by simpa using hk) (by simp)

theorem Closed.held_copies (hk : k ≠ rest.length) : l'.held (.copies k) = l.held (.copies k) :=
  hc.held _ (by simp) (by simpa using hk)

theorem Closed.holdings (hh : Holdings base h l log) (hp : h.past = d :: rest)
    (hbase : base ≤ rest.length) :
    Holdings base ⟨⟨b, h.now.arrays, h.now.liveStacks⟩, rest⟩ l' (forgotten log rest.length) where
  describes := hc.describes
  array := (hc.held _ (by simp) (by simp)).trans hh.array
  root := hh.root
  stack s hs := by
    rw [hc.held _ (by simp) (by simp)]
    exact hh.stack s hs
  stackless s hs := (hc.held _ (by simp) (by simp)).trans (hh.stackless s hs)
  liveStacks_nodup := hh.liveStacks_nodup
  saves := by
    rw [hc.change.saves, hc.held _ (by simp) (by simp)]
    exact hh.saves
  saveless hnil := by
    rw [hc.held _ (by simp) (by simp)] at hnil
    exact absurd hnil (hh.saves_ne_nil (by rw [hp]; exact Nat.succ_pos _))
  depth_le := by
    have hdepth := hh.depth_le
    rw [hp, List.length_cons] at hdepth
    exact Nat.le_of_succ_le hdepth
  levels := by
    rw [hc.levels]
    refine List.map_congr_left fun k hk => ?_
    unfold Ledger.level
    rw [hc.held_records (Nat.ne_of_lt (List.mem_range.mp hk))]
  opened k hk := by
    have hne : k ≠ rest.length := Nat.ne_of_lt hk
    rw [hc.held_records hne, hc.values _ (by simp) (by simpa using hne), forgotten_ne hne]
    exact hh.opened k (by rw [hp]; exact Nat.lt_succ_of_lt hk)
  closed k hk := by
    rcases eq_or_ne k rest.length with rfl | hne
    · exact ⟨hc.records, forgotten_self⟩
    · rw [hc.held_records hne, forgotten_ne hne]
      exact hh.closed k (by rw [hp]; exact Nat.lt_of_le_of_ne hk (Ne.symm hne))
  copies k := by
    rcases eq_or_ne k rest.length with rfl | hne
    · rw [hc.copies, forgotten_self]
      rfl
    · rw [hc.held_copies hne, forgotten_ne hne]
      exact hh.copies k
  older := by
    have hnow := List.pairwise_cons.mp hh.older
    rw [hp, List.map_cons] at hnow
    exact List.pairwise_cons.mpr ⟨fun c hcm => hnow.1 c (List.mem_cons_of_mem _ hcm),
      (List.pairwise_cons.mp hnow.2).2⟩
  base_le := hbase
  abandoned hne := by
    obtain ⟨c, outer, hs, hlen, r, hr, hnot⟩ := hh.abandoned hne
    have hinner : outer.length < rest.length := by omega
    rw [hp] at hs
    rcases List.suffix_cons_iff.mp hs with heq | hs
    · cases heq
      exact absurd hinner (Nat.lt_irrefl _)
    · refine ⟨c, outer, hs, hlen, r, ?_, hnot⟩
      rwa [forgotten_ne (Nat.ne_of_lt hinner)]
  source {k r} hk hr := by
    rcases eq_or_ne k rest.length with rfl | hne
    · rw [forgotten_self] at hr
      cases hr
    · rw [forgotten_ne hne] at hr
      exact hh.source hk hr

theorem Closed.enclosed (he : Enclosed h l log) (hp : h.past = d :: rest) {now : Client} :
    Enclosed ⟨now, rest⟩ l' (forgotten log rest.length) where
  within c outer hs r hr := by
    rw [forgotten_ne (Nat.ne_of_lt (depth_of_suffix hs))] at hr
    exact he.within c outer (suffix_of_inner hp hs) r hr
  spared c outer hs k hk := by
    have hdepth : outer.length < rest.length := depth_of_suffix hs
    rw [hc.held _ (by simp) (by simp)] at hk
    rw [he.spared c outer (suffix_of_inner hp hs) k hk]
    refine or_congr_right (exists_congr fun j => and_congr_right fun hj => ?_)
    rw [hc.held_records (by omega), hc.held_copies (by omega)]

end Levels

/-- Where a level below finds an array once the records are undone. -/
theorem Closed.origin_eq (hh : Holdings base h l log) (hp : h.past = d :: rest)
    (hbase : base ≤ rest.length) (hk : k ≤ rest.length) (e : Handle) :
    origin (since log k h.past.length) e =
      origin (log rest.length) (origin (since (forgotten log rest.length) k rest.length) e) := by
  have hlen : h.past.length = rest.length + 1 := by rw [hp, List.length_cons]
  have hsince : since (forgotten log rest.length) k rest.length = since log k rest.length :=
    since_congr fun j hj => forgotten_ne (Nat.ne_of_lt hj)
  rw [hlen, since_succ hk, hsince, origin_append]
  intro r hr q hq
  obtain ⟨j, -, -, hr⟩ := mem_since.mp hr
  exact hh.source_ne_copy hbase hq hr

/-- No level below looks into a segment or into a copy that is given back. -/
theorem Holdings.origin_kept (hh : Holdings base h l log) (he : e ∈ h.now.entities) (k m n : Nat) :
    (∀ o : Owner, o.IsStack → origin (since (forgotten log m) k n) e ∉ l.held o) ∧
      origin (since (forgotten log m) k n) e ∉ l.held (.copies m) := by
  have hmem : ∃ p : Owner, ¬p.IsStack ∧ p ≠ .copies m ∧
      origin (since (forgotten log m) k n) e ∈ l.held p := by
    rcases origin_since_cases (forgotten log m) k n e with hself | ⟨j, r, hr, -, hcopy⟩
    · refine ⟨.array, id, by simp, ?_⟩
      rw [hself, hh.array]
      exact he
    · have hj : j ≠ m := by
        rintro rfl
        rw [forgotten_self] at hr
        cases hr
      rw [forgotten_ne hj] at hr
      refine ⟨.copies j, id, by simpa using hj, ?_⟩
      rw [hcopy]
      exact hh.mem_copies hr
  obtain ⟨p, hstack, hcopies, hp⟩ := hmem
  refine ⟨fun o ho => hh.describes.not_mem_of_ne hp ?_, hh.describes.not_mem_of_ne hp
    (Ne.symm hcopies)⟩
  rintro rfl
  exact hstack ho

section Memory

variable (hc : Closed h l log rest.length b l') (hh : Holdings base h l log) (hp : h.past = d :: rest)
  (hbase : base ≤ rest.length)

include hc hh hp hbase

/-- The levels below still see what they saw. -/
theorem Closed.shows_origin (he : e ∈ h.now.entities) (hk : k ≤ rest.length) {i : Nat} {o : Object}
    (ho : h.now.arena.Shows (origin (since log k h.past.length) e) i o) :
    b.Shows (origin (since (forgotten log rest.length) k rest.length) e) i o := by
  obtain ⟨hsegment, hcopy⟩ := hh.origin_kept he k rest.length rest.length
  rw [Closed.origin_eq hh hp hbase hk] at ho
  exact hc.shows _ hsegment hcopy i o ho

theorem Closed.stamp_origin (he : e ∈ h.now.entities) (hk : k ≤ rest.length) :
    b.stamp (origin (since (forgotten log rest.length) k rest.length) e) =
      min (h.now.arena.stamp (origin (since log k h.past.length) e)) rest.length := by
  obtain ⟨hsegment, hcopy⟩ := hh.origin_kept he k rest.length rest.length
  rw [Closed.origin_eq hh hp hbase hk]
  exact hc.stamp _ hsegment hcopy

theorem Closed.memory (hm : Memory base h log) :
    Memory base ⟨⟨b, h.now.arrays, h.now.liveStacks⟩, rest⟩ (forgotten log rest.length) where
  readable k hkb hk v hv i hi := by
    have hk' : k ≤ h.past.length := by
      rw [hp]
      exact Nat.le_succ_of_le hk
    obtain ⟨o, ho⟩ := hm.readable k hkb hk' v hv i hi
    exact ⟨o, hc.shows_origin hh hp hbase (Client.mem_entities hv (size_ne_zero hi)) hk ho⟩
  kept c outer hs hkb v hv i hi := by
    obtain ⟨o, hread, ho⟩ := hm.kept c outer (suffix_of_inner hp hs) hkb v hv i hi
    have hv' := (hh.arrays_suffix (suffix_of_inner hp hs)).subset hv
    exact ⟨o, hread, hc.shows_origin hh hp hbase (Client.mem_entities hv' (size_ne_zero hi))
      (Nat.le_of_lt (depth_of_suffix hs)) ho⟩
  stamped c outer hs hkb e he := by
    have hdepth : outer.length < rest.length := depth_of_suffix hs
    have hstamped := hm.stamped c outer (suffix_of_inner hp hs) hkb e he
    rw [forgotten_ne (Nat.ne_of_lt hdepth), ← hstamped, hc.stamp_origin hh hp hbase he hdepth]
    exact ⟨fun hlt => Nat.lt_of_lt_of_le hlt (Nat.min_le_left ..),
      fun hlt => Nat.lt_min.mpr ⟨hlt, hdepth⟩⟩
  below := hc.below

end Memory

theorem Closed.account (hc : Closed h l log rest.length b l') (hA : Account terms h l log)
    (hp : h.past = d :: rest) (hbase : terms.base ≤ rest.length) :
    Account terms ⟨⟨b, h.now.arrays, h.now.liveStacks⟩, rest⟩ l' (forgotten log rest.length) where
  toHoldings := hc.holdings hA.toHoldings hp hbase
  toMemory := hc.memory hA.toHoldings hp hbase hA.toMemory
  enclosed hwide := hc.enclosed (hA.enclosed hwide) hp
  once hextra k := by
    rcases eq_or_ne k rest.length with rfl | hne
    · rw [forgotten_self]
      exact List.nodup_nil
    · rw [forgotten_ne hne]
      exact hA.once hextra k
  sourced hextra k r hr := by
    rcases eq_or_ne k rest.length with rfl | hne
    · rw [forgotten_self] at hr
      cases hr
    · rw [forgotten_ne hne] at hr
      exact hA.sourced hextra k r hr
  unstamped hextra := by
    have hzero : origin (log rest.length) 0 = 0 :=
      origin_of_not_source fun r hr => hA.sourced hextra _ r hr
    have hstamp := hc.stamp 0 (fun o _ => hA.describes.zero o) (hA.describes.zero _)
    rw [hzero, hA.unstamped hextra] at hstamp
    simpa using hstamp

/-! ## The call -/

/-- If the levels cannot be counted, a restore does nothing. -/
theorem Arena.restore_uncounted {f : Fault} (hdepth : a.depth = .error f) : restore a = .error f a := by
  unfold restore
  exact EStateM.bind_of_error (ArenaM.reading_of_error hdepth)

/-- If no level is open, a restore does nothing. -/
theorem Arena.restore_unsaved (hdepth : a.depth = .ok 0) : restore a = .error .nothingSaved a := by
  unfold restore
  rw [ArenaM.reading_bind hdepth]
  rfl

theorem Holdings.restore_nothing (hh : Holdings base h l log) (hp : h.past = []) :
    Arena.restore h.now.arena = .error .nothingSaved h.now.arena := by
  refine Arena.restore_unsaved ?_
  rw [hh.depth_eq, hp]
  rfl

/-- Taking the innermost level off the save stack. -/
theorem Holdings.popLevel_spec (hh : Holdings base h l log) (hp : h.past = d :: rest) :
    ∃ b, h.now.arena.saveStack.pop h.now.arena = .ok (l.level rest.length) b ∧
      Arena.Rewrites {k | k ∈ l.held .saves} h.now.arena b ∧
      (l.set .saves (l.held .saves) ((List.range rest.length).map l.level)).Describes b := by
  have hd := hh.saves_head (hh.saves_ne_nil (by rw [hp]; exact Nat.succ_pos _))
  have hlaid := hh.describes.laid_of_head (o := .saves) trivial hd
  rw [hh.levels, hp, List.length_cons, List.range_succ, List.map_append, List.map_singleton] at hlaid
  obtain ⟨b, hpop, hr, hlb⟩ := hlaid.pop_spec hh.describes.sound hd
  exact ⟨b, hpop, hr, hh.describes.revalue hr.toTouches hlb⟩

namespace Ledger

/-- The ledger once level `n` is off the save stack and its records are undone. -/
def undone (l : Ledger) (n : Nat) : Ledger :=
  (l.set .saves (l.held .saves) ((List.range n).map l.level)).leave n []

theorem held_undone {o : Owner} (ho : o ≠ .copies m) : (l.undone m).held o = l.held o := by
  have hsaves : (l.set .saves (l.held .saves) ((List.range m).map l.level)).held = l.held :=
    Function.update_eq_self ..
  rw [undone, held_leave ho, hsaves]

theorem held_undone_copies : (l.undone m).held (.copies m) = [] := held_leave_copies

theorem values_undone {o : Owner} (hsaves : o ≠ .saves) (hrecords : o ≠ .records m) :
    (l.undone m).values o = l.values o := by
  rw [undone, values_leave hrecords, values_set_ne hsaves]

theorem values_undone_saves : (l.undone m).values .saves = (List.range m).map l.level := by
  rw [undone, values_leave (by simp), values_set_self]

end Ledger

/-- The level comes off the save stack and its records are undone. -/
theorem Holdings.undoLevel_spec (hh : Holdings base h l log) (hp : h.past = d :: rest)
    (hbase : base ≤ rest.length) :
    ∃ b c, h.now.arena.saveStack.pop h.now.arena = .ok (l.level rest.length) b ∧
      Arena.undoAll ⟨(l.held (.records rest.length)).headD 0⟩ b.chainBound b = .ok () c ∧
      Arena.Rewrites Set.univ h.now.arena c ∧ (l.undone rest.length).Describes c ∧
      ∀ k, (∀ o : Owner, o.IsStack → k ∉ l.held o) → k ∉ l.held (.copies rest.length) →
        c.shown k = h.now.arena.shown (origin (log rest.length) k) := by
  have hopen : rest.length < h.past.length := by
    rw [hp]
    exact Nat.lt_succ_self _
  obtain ⟨b, hpop, hrb, hlb⟩ := hh.popLevel_spec hp
  have hheld : (l.set .saves (l.held .saves) ((List.range rest.length).map l.level)).held = l.held :=
    Function.update_eq_self ..
  -- a row for every copy, and one to spare
  have hbound : (log rest.length).length < b.chainBound := by
    have hrows := Arena.length_le_size (hlb.nodup (.copies rest.length)) fun k hk => hlb.live_of_mem hk
    rw [hheld, hh.copies, List.length_map] at hrows
    exact Nat.lt_succ_of_le hrows
  have hpending : Pending (l.set .saves (l.held .saves) ((List.range rest.length).map l.level))
      rest.length ⟨(l.held (.records rest.length)).headD 0⟩ (log rest.length) b := by
    refine ⟨hlb, ?_, ?_, ?_, fun q hq => ?_⟩
    · rw [hheld]
      exact hh.records_head hopen
    · rw [Ledger.values_set_ne (by simp)]
      exact (hh.opened _ hopen).2
    · rw [hheld]
      exact hh.copies _
    · rw [hheld, hh.array]
      exact hh.source hbase hq
  obtain ⟨c, hundo, hrc, hlc, hshown⟩ := hpending.undoAll_spec b.chainBound hbound
  refine ⟨b, c, hpop, hundo, (hrb.mono fun _ _ => trivial).comp hrc, hlc, fun k hsegment hcopy => ?_⟩
  have horigin : origin (log rest.length) k ∉ l.held .saves := by
    rcases origin_cases (log rest.length) k with ⟨-, hself⟩ | ⟨q, hq, -, hcp⟩
    · rw [hself]
      exact hsegment _ trivial
    · rw [hcp]
      exact hh.describes.not_mem_of_ne (hh.mem_copies hq) (by simp)
  rw [hshown k (by rw [hheld]; exact hsegment _ trivial) (by rw [← hh.copies]; exact hcopy),
    Arena.shown_congr (hrb.cell _ horigin)]

/-- The level is closed once its stack of records is gone and the stamps are lowered. -/
theorem Closed.of_undone {c f : Arena}
    (hcount : (UInt32.ofNat m).toNat = m)
    (hrc : Arena.Rewrites Set.univ h.now.arena c)
    (hshown : ∀ k, (∀ o : Owner, o.IsStack → k ∉ l.held o) → k ∉ l.held (.copies m) →
      c.shown k = h.now.arena.shown (origin (log m) k))
    (hrb : Arena.Rewrites {k | k ∈ l.held (.records m)} c b)
    (hlb : ((l.undone m).set (.records m) [] []).Describes b) (hrf : Arena.Rewrites Set.univ b f)
    (hcell : ∀ k, f.cell k = (b.cell k).map fun x =>
      { x with mark := Arena.lowerMark (UInt32.ofNat m) x.mark }) :
    Closed h l log m f ((l.undone m).set (.records m) [] []) := by
  have hplace : ∀ k, (∀ o : Owner, o.IsStack → k ∉ l.held o) → k ∉ l.held (.copies m) →
      b.shown k = h.now.arena.shown (origin (log m) k) := fun k hsegment hcopy => by
    rw [Arena.shown_congr (hrb.cell k (hsegment _ trivial)), hshown k hsegment hcopy]
  have hstamp : ∀ k, f.stamp k = min (b.stamp k) m := fun k => by
    have hlowered := Arena.stamp_lowered (hcell k)
    rwa [hcount] at hlowered
  exact
    { describes := hlb.lower hrf.sound hcell
      held := fun o h1 h2 => by rw [Ledger.held_set_ne h1, Ledger.held_undone h2]
      values := fun o h1 h2 => by rw [Ledger.values_set_ne h2, Ledger.values_undone h1 h2]
      records := Ledger.held_set_self
      copies := by rw [Ledger.held_set_ne (by simp), Ledger.held_undone_copies]
      levels := by rw [Ledger.values_set_ne (by simp), Ledger.values_undone_saves]
      change := (hrc.comp (hrb.mono fun _ _ => trivial)).comp hrf
      shows := fun k hsegment hcopy i o ho =>
        (ho.of_shown (hplace k hsegment hcopy)).lowered (hcell k)
      stamp := fun k hsegment hcopy => by
        rw [hstamp, Arena.stamp_of_shown (hplace k hsegment hcopy)]
      below := fun k => by
        rw [hstamp]
        exact Nat.min_le_right .. }

theorem ofNat_succ (n : Nat) : UInt32.ofNat (n + 1) = UInt32.ofNat n + 1 := by
  rw [UInt32.ofNat_add]
  rfl

theorem ofNat_succ_sub_one (n : Nat) : UInt32.ofNat (n + 1) - 1 = UInt32.ofNat n := by
  rw [ofNat_succ, UInt32.add_sub_cancel]

section Popped

variable {a b c e f : Arena} {n : UInt32} {level : SaveLevel} (hdepth : a.depth = .ok n)
  (hpos : n ≠ 0) (hpop : a.saveStack.pop a = .ok (.save level) b)

include hdepth hpos hpop

/-- What is left to do once the level is off the save stack. -/
theorem Arena.restore_of_pop : restore a = (do
    undoAll ⟨level.records⟩ b.chainBound
    (Stack.mk level.records).free
    if level.level = 0 then
      throw .overflow
    discard <| lowerTopLevels (level.level - 1) : ArenaM Unit) b := by
  unfold restore
  rw [ArenaM.reading_bind hdepth]
  simp only
  rw [if_neg hpos, ArenaM.reading_bind (f := fun a => .ok a.saveStack) rfl, EStateM.bind_of_ok hpop]
  simp only
  exact ArenaM.reading_bind (f := fun a => .ok a.chainBound) rfl

/-- A restore is done once the records are undone, their stack is gone and the stamps are
lowered. -/
theorem Arena.restore_eq {k : Nat} (hlevel : level.level ≠ 0)
    (hundo : undoAll ⟨level.records⟩ b.chainBound b = .ok () c)
    (hfree : (Stack.mk level.records).free c = .ok () e)
    (hlower : lowerTopLevels (level.level - 1) e = .ok k f) : restore a = .ok () f := by
  rw [restore_of_pop hdepth hpos hpop, EStateM.bind_of_ok hundo, EStateM.bind_of_ok hfree,
    if_neg hlevel]
  exact EStateM.map_of_ok hlower

/-- If the records cannot be undone, that is where a restore stops. -/
theorem Arena.restore_error {f : Fault} (hundo : undoAll ⟨level.records⟩ b.chainBound b = .error f c) :
    restore a = .error f c := by
  rw [restore_of_pop hdepth hpos hpop]
  exact EStateM.bind_of_error hundo

end Popped

/-- With a level open `restore` succeeds, and closes it. -/
theorem Account.restore_spec (hA : Account terms h l log) (hp : h.past = d :: rest)
    (hbase : terms.base ≤ rest.length) :
    ∃ b l', Arena.restore h.now.arena = .ok () b ∧ Closed h l log rest.length b l' := by
  have hlen : h.past.length = rest.length + 1 := by rw [hp, List.length_cons]
  have hdeep : rest.length + 1 ≤ 0xFFF := hlen ▸ hA.depth_le
  have hcount : (UInt32.ofNat rest.length).toNat = rest.length := by
    rw [UInt32.toNat_ofNat']
    omega
  have hpos := hA.depth_ne_zero (by omega)
  have hdepth := hA.depth_eq
  rw [hlen] at hpos hdepth
  obtain ⟨b, c, hpop, hundo, hrc, hlc, hshown⟩ := hA.undoLevel_spec hp hbase
  have hheld : (l.undone rest.length).held (.records rest.length) = l.held (.records rest.length) :=
    Ledger.held_undone (by simp)
  have hd : ((l.undone rest.length).held (.records rest.length)).head? =
      some ((l.held (.records rest.length)).headD 0) := by
    rw [hheld]
    exact hA.records_head (by omega)
  have hlaid := hlc.laid_of_head (o := .records rest.length)
    (s := ⟨(l.held (.records rest.length)).headD 0⟩) trivial hd
  obtain ⟨e, hfree, hre, hgone⟩ := hlaid.free_spec hlc.sound hd
  have hle := hlc.dropped hre.toTouches hgone
  rw [hheld] at hre
  obtain ⟨n, f, hlower, hrf, hcell⟩ := Arena.lowerTopLevels_spec hle.sound (UInt32.ofNat rest.length)
  rw [← ofNat_succ_sub_one] at hlower
  exact ⟨f, _, Arena.restore_eq hdepth hpos hpop hpos hundo hfree hlower,
    .of_undone hcount hrc hshown hre hle hrf hcell⟩

end BankedMemory
