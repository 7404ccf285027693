import BankedMemory.Proofs.Checkpoint.OpenLevels
import BankedMemory.Proofs.Checkpoint.Recording

/-!
# A record more

Every level that is open keeps what it had when an entity is recorded in the current one: a level
that found the contents in the entity itself finds them in the copy. `Account.preserve_spec` is what
a call that records an entity comes to, `Account.arrayPut_spec` what storing an element does.
-/

namespace BankedMemory

variable {terms : Terms} {base : Nat} {h : History} {l : Ledger} {log : Nat → List Record}
  {b : Arena} {k n : Nat} {e copy : Handle} {x : Arena.Cell} {rows : List Handle} {d : Client}
  {rest : List Client} {content : Content}

/-- The records with one more in level `n`. -/
def recorded (log : Nat → List Record) (n : Nat) (r : Record) : Nat → List Record :=
  Function.update log n (log n ++ [r])

theorem recorded_self {r : Record} : recorded log n r n = log n ++ [r] := Function.update_self ..

theorem recorded_ne {r : Record} (hk : k ≠ n) : recorded log n r k = log k :=
  Function.update_of_ne hk ..

theorem mem_recorded {q r : Record} (hr : r ∈ log k) : r ∈ recorded log n q k := by
  rcases eq_or_ne k n with rfl | hk
  · rw [recorded_self]
    exact List.mem_append_left _ hr
  · rwa [recorded_ne hk]

/-- The record is made in the latest level, and no other level changes. -/
theorem Ledger.openLevels_record (hhead : rows.head? = (l.held (.records n)).head?) :
    (l.record n e copy rows).openLevels (recorded log n ⟨e, copy⟩) (n + 1) =
      OpenLevel.record (l.openLevels log (n + 1)) ⟨e, copy⟩ := by
  rw [openLevels_succ, openLevels_succ, OpenLevel.record_concat]
  refine congrArg₂ (· ++ [·]) (List.map_congr_left fun k hk => ?_) ?_
  · have hne : k ≠ n := Nat.ne_of_lt (List.mem_range.mp hk)
    unfold openLevel
    rw [held_record (by simp) (by simpa using hne), recorded_ne hne]
  · unfold openLevel
    rw [held_record_records, recorded_self, List.headD_eq_head?_getD, hhead,
      ← List.headD_eq_head?_getD]

section Recorded

variable (hh : Holdings base h l log) (hp : h.past = d :: rest)

include hh hp

theorem Holdings.record (he : e = 0 ∨ e ∈ h.now.entities)
    (hl : (l.record rest.length e copy rows).Describes b)
    (hhead : rows.head? = (l.held (.records rest.length)).head?)
    (hsaves : b.saves = h.now.arena.saves) :
    Holdings base ⟨⟨b, h.now.arrays, h.now.liveStacks⟩, h.past⟩ (l.record rest.length e copy rows)
      (recorded log rest.length ⟨e, copy⟩) where
  describes := hl
  array := (Ledger.held_record (by simp) (by simp)).trans hh.array
  root := hh.root
  stack s hs := by
    rw [Ledger.held_record (by simp) (by simp)]
    exact hh.stack s hs
  stackless s hs := (Ledger.held_record (by simp) (by simp)).trans (hh.stackless s hs)
  liveStacks_nodup := hh.liveStacks_nodup
  saves := by
    rw [Ledger.held_record (by simp) (by simp), hsaves]
    exact hh.saves
  saveless hnil := by
    rw [Ledger.held_record (by simp) (by simp)] at hnil
    exact hh.saveless hnil
  depth_le := hh.depth_le
  levels := by
    rw [Ledger.values_record (by simp), hh.levels]
    refine List.map_congr_left fun k _ => ?_
    unfold Ledger.level
    rcases eq_or_ne k rest.length with rfl | hk
    · rw [Ledger.held_record_records, List.headD_eq_head?_getD, List.headD_eq_head?_getD, hhead]
    · rw [Ledger.held_record (by simp) (by simpa using hk)]
  opened k hk := by
    rcases eq_or_ne k rest.length with rfl | hne
    · obtain ⟨hheld, hvalues⟩ := hh.opened _ hk
      rw [Ledger.held_record_records, recorded_self, Ledger.record, Ledger.values_set_self, hvalues,
        List.map_append]
      refine ⟨fun hnil => hheld ?_, rfl⟩
      rw [hnil] at hhead
      exact List.head?_eq_none_iff.mp hhead.symm
    · rw [Ledger.held_record (by simp) (by simpa using hne), Ledger.values_record (by simpa using hne),
        recorded_ne hne]
      exact hh.opened k hk
  closed k hk := by
    have hne : k ≠ rest.length := by
      rintro rfl
      rw [hp] at hk
      exact absurd hk (Nat.not_succ_le_self _)
    rw [Ledger.held_record (by simp) (by simpa using hne), recorded_ne hne]
    exact hh.closed k hk
  copies k := by
    rcases eq_or_ne k rest.length with rfl | hne
    · rw [Ledger.held_record_copies, recorded_self, List.map_append, hh.copies]
      rfl
    · rw [Ledger.held_record (by simpa using hne) (by simp), recorded_ne hne]
      exact hh.copies k
  older := hh.older
  base_le := hh.base_le
  abandoned hne := by
    obtain ⟨b, outer, hs, hlen, r, hr, hnot⟩ := hh.abandoned hne
    exact ⟨b, outer, hs, hlen, r, mem_recorded hr, hnot⟩
  source {k r} hk hr := by
    rcases eq_or_ne k rest.length with rfl | hne
    · rw [recorded_self, List.mem_append, List.mem_singleton] at hr
      rcases hr with hr | rfl
      · exact hh.source hk hr
      · exact he
    · rw [recorded_ne hne] at hr
      exact hh.source hk hr

omit hh in
/-- The record is about an array older than the level. -/
theorem Enclosed.record (hn : Enclosed h l log) (he : e = 0 ∨ e ∈ d.entities) {now : Client} :
    Enclosed ⟨now, h.past⟩ (l.record rest.length e copy rows)
      (recorded log rest.length ⟨e, copy⟩) where
  within c outer hs r hr := by
    rcases eq_or_ne outer.length rest.length with heq | hne
    · -- only the innermost level has this depth
      have hs' : c :: outer <:+ d :: rest := hp ▸ hs
      have hcons : c :: outer = d :: rest := hs'.eq_of_length (by simp [heq])
      cases hcons
      rw [recorded_self, List.mem_append, List.mem_singleton] at hr
      rcases hr with hr | rfl
      · exact hn.within d rest hs r hr
      · exact he
    · rw [recorded_ne hne] at hr
      exact hn.within c outer hs r hr
  spared c outer hs k hk := by
    rw [Ledger.held_record (by simp) (by simp)] at hk
    have hdepth : outer.length ≤ rest.length := by
      have hlt : outer.length < h.past.length := depth_of_suffix hs
      rw [hp] at hlt
      exact Nat.le_of_lt_succ hlt
    rw [hn.spared c outer hs k hk]
    refine or_congr_right (exists_congr fun j => and_congr_right fun hj => ?_)
    rw [Ledger.held_record (o := .records j) (by simp) (by simp; omega),
      Ledger.held_record (o := .copies j) (by simp; omega) (by simp)]

/-- A level that looked for `e` itself looks for its copy now. -/
theorem Holdings.origin_recorded (he : e = 0 ∨ e ∈ h.now.entities) (hk : k < h.past.length)
    (e' : Handle) : origin (since (recorded log rest.length ⟨e, copy⟩) k h.past.length) e' =
      if origin (since log k h.past.length) e' = e then copy
      else origin (since log k h.past.length) e' := by
  have hlen : h.past.length = rest.length + 1 := by rw [hp, List.length_cons]
  unfold recorded
  rw [hlen, since_record (by omega), origin_append, origin_singleton]
  · by_cases heq : origin (since log k (rest.length + 1)) e' = e
    · rw [if_pos heq.symm, if_pos heq]
    · rw [if_neg (Ne.symm heq), if_neg heq]
  · intro r hr q hq
    rw [List.mem_singleton] at hq
    subst hq
    obtain ⟨j, -, -, hr⟩ := mem_since.mp hr
    rcases he with rfl | he
    · exact Ne.symm (hh.copy_ne_zero hr)
    · exact fun heq => hh.copy_not_entity hr (heq ▸ he)

end Recorded

/-- An entity was copied aside and stamped, and what the levels have elsewhere is untouched. -/
structure CopiedAside (h : History) (log : Nat → List Record) (e copy : Handle) (b : Arena) :
    Prop where
  aside : ∀ i o, h.now.arena.Shows e i o → b.Shows copy i o
  asideStamp : b.stamp copy = h.now.arena.stamp e
  shows : ∀ i o, h.now.arena.Shows e i o → b.Shows e i o
  stamp : b.stamp e = h.past.length
  other : ∀ e' ∈ h.now.entities, ∀ k, origin (since log k h.past.length) e' ≠ e →
    b.shown (origin (since log k h.past.length) e') =
      h.now.arena.shown (origin (since log k h.past.length) e')
  below : ∀ k, b.stamp k ≤ h.past.length

namespace CopiedAside

/-- In the current level the entity has the stamp now, as the record demands. -/
theorem stamped_current (hc : CopiedAside h log e copy b) (hp : h.past = d :: rest)
    (hm : Memory base h log) (hbase : base ≤ rest.length) {e' : Handle} (he' : e' ∈ h.now.entities) :
    rest.length < b.stamp e' ↔
      (∃ r ∈ recorded log rest.length ⟨e, copy⟩ rest.length, r.source = e') ∨ e' ∉ d.entities := by
  have hlen : h.past.length = rest.length + 1 := by rw [hp, List.length_cons]
  have hstamped := hm.stamped d rest (innermost hp) hbase e' he'
  have hother := hc.other e' he' h.past.length
  rw [since_eq_nil (Nat.le_of_eq hlen), origin_nil] at hstamped
  rw [since_eq_nil (Nat.le_refl _), origin_nil] at hother
  rw [recorded_self]
  rcases eq_or_ne e' e with rfl | hne
  · rw [hc.stamp]
    exact iff_of_true (by omega) (.inl ⟨_, List.mem_append_right _ (List.mem_singleton_self _), rfl⟩)
  · rw [Arena.stamp_of_shown (hother hne), hstamped]
    refine or_congr_left ⟨?_, ?_⟩
    · rintro ⟨r, hr, hsource⟩
      exact ⟨r, List.mem_append_left _ hr, hsource⟩
    · rintro ⟨r, hr, hsource⟩
      rcases List.mem_append.mp hr with hr | hr
      · exact ⟨r, hr, hsource⟩
      · rw [List.mem_singleton] at hr
        subst hr
        exact absurd hsource (Ne.symm hne)

variable (hc : CopiedAside h log e copy b) (hh : Holdings base h l log) (hp : h.past = d :: rest)

include hc hh hp

theorem shows_origin (he : e = 0 ∨ e ∈ h.now.entities) {e' : Handle} (he' : e' ∈ h.now.entities)
    (hk : k ≤ h.past.length) {i : Nat} {o : Object}
    (ho : h.now.arena.Shows (origin (since log k h.past.length) e') i o) :
    b.Shows (origin (since (recorded log rest.length ⟨e, copy⟩) k h.past.length) e') i o := by
  rcases Nat.lt_or_eq_of_le hk with hlt | rfl
  · rw [hh.origin_recorded hp he hlt]
    split
    · next heq => exact hc.aside i o (heq ▸ ho)
    · next hne => exact ho.of_shown (hc.other e' he' k hne)
  · have hother := hc.other e' he' h.past.length
    rw [since_eq_nil (Nat.le_refl _), origin_nil] at ho hother ⊢
    rcases eq_or_ne e' e with rfl | hne
    · exact hc.shows i o ho
    · exact ho.of_shown (hother hne)

/-- The stamps still tell what the levels below have recorded. -/
theorem stamp_origin (he : e = 0 ∨ e ∈ h.now.entities) {e' : Handle} (he' : e' ∈ h.now.entities)
    (hk : k < h.past.length) :
    b.stamp (origin (since (recorded log rest.length ⟨e, copy⟩) k h.past.length) e') =
      h.now.arena.stamp (origin (since log k h.past.length) e') := by
  rw [hh.origin_recorded hp he hk]
  split
  · next hmoved => rw [hc.asideStamp, hmoved]
  · next hne => rw [Arena.stamp_of_shown (hc.other e' he' _ hne)]

theorem arraysKept (he : e = 0 ∨ e ∈ h.now.entities) : h.now.ArraysKept b := by
  intro e' he' i o ho
  have hshow := hc.shows_origin hh hp he he' (Nat.le_refl _) (i := i) (o := o)
  rw [since_eq_nil (Nat.le_refl _), since_eq_nil (Nat.le_refl _), origin_nil] at hshow
  exact hshow ho

theorem memory (he : e = 0 ∨ e ∈ h.now.entities) (hm : Memory base h log) :
    Memory base ⟨⟨b, h.now.arrays, h.now.liveStacks⟩, h.past⟩ (recorded log rest.length ⟨e, copy⟩) where
  readable k hbase hk v hv i hi := by
    obtain ⟨o, ho⟩ := hm.readable k hbase hk v hv i hi
    exact ⟨o, hc.shows_origin hh hp he (Client.mem_entities hv (size_ne_zero hi)) hk ho⟩
  kept c outer hs hbase v hv i hi := by
    obtain ⟨o, hread, ho⟩ := hm.kept c outer hs hbase v hv i hi
    have hv' := (hh.arrays_suffix hs).subset hv
    exact ⟨o, hread, hc.shows_origin hh hp he (Client.mem_entities hv' (size_ne_zero hi))
      (Nat.le_of_lt (depth_of_suffix hs)) ho⟩
  stamped c outer hs hbase e' he' := by
    have hdepth : outer.length < h.past.length := depth_of_suffix hs
    rcases Nat.lt_or_eq_of_le (Nat.succ_le_of_lt hdepth) with hlt | heq
    · have hne : outer.length ≠ rest.length := by
        rintro heq
        rw [hp, heq] at hlt
        exact absurd hlt (Nat.lt_irrefl _)
      rw [recorded_ne hne, ← hm.stamped c outer hs hbase e' he']
      exact iff_of_eq (congrArg _ (hc.stamp_origin hh hp he he' hlt))
    · have hs' : c :: outer <:+ d :: rest := hp ▸ hs
      have hcons : c :: outer = d :: rest := hs'.eq_of_length (by rw [← hp, ← heq]; rfl)
      cases hcons
      have hcurrent := hc.stamped_current hp hm hbase he'
      simp only
      rw [since_eq_nil (Nat.le_of_eq heq.symm), origin_nil]
      exact hcurrent
  below := hc.below

end CopiedAside

/-! ## Calls that record -/

theorem Holdings.cell_recordable (hh : Holdings base h l log) (he : e = 0 ∨ e ∈ h.now.entities) :
    ∃ x, h.now.arena.cell e = some x := by
  rcases he with rfl | he
  · exact Arena.live_iff_cell.mp hh.describes.sound.live_zero
  · exact hh.cell_entity he

/-- The stamp an entity is given when it is recorded. -/
theorem Holdings.stamp_of_level (hh : Holdings base h l log)
    (hc : b.cell e = some { x with mark := x.mark.withTopLevel (UInt32.ofNat h.past.length) }) :
    b.stamp e = h.past.length := by
  rw [Arena.stamp_of_cell hc, Mark.topLevel_withTopLevel _ hh.level_le, hh.toNat_depth]

/-- With no level open an entity is only stamped. -/
theorem Account.stamp_spec (hA : Account terms h l log) (he : e = 0 ∨ e ∈ h.now.entities)
    (hx : h.now.arena.cell e = some x) (hp : h.past = []) :
    ∃ b, Arena.setMark e (x.mark.withTopLevel (UInt32.ofNat h.past.length)) h.now.arena = .ok () b ∧
      Account terms ⟨⟨b, h.now.arrays, h.now.liveStacks⟩, h.past⟩ l log ∧
      b.stamp e = h.past.length ∧ h.now.ArraysKept b := by
  obtain ⟨b, hrun, hr, hb⟩ := Arena.setMark_spec hA.describes.sound hx
    (x.mark.withTopLevel (UInt32.ofNat h.past.length))
  have hstamp := hA.stamp_of_level hb
  have hcell : ∀ k, k ≠ e → b.shown k = h.now.arena.shown k := fun k hk =>
    Arena.shown_congr (hr.cell k hk)
  have hshow : ∀ k i o, h.now.arena.Shows k i o → b.Shows k i o := fun k i o ho => by
    rcases eq_or_ne k e with rfl | hne
    · obtain ⟨y, hy, hi, hslot⟩ := ho
      rw [hx] at hy
      cases hy
      exact ⟨_, hb, hi, hslot⟩
    · exact ho.of_shown (hcell k hne)
  refine ⟨b, hrun, ⟨hA.toHoldings.rewrite he hr.toTouches (Arena.live_iff_cell.mpr ⟨_, hb⟩),
    ⟨?_, ?_, ?_, ?_⟩, fun hwide => (hA.enclosed hwide).move _, hA.once, hA.sourced, ?_⟩, hstamp,
    fun k _ => hshow k⟩
  · intro k hbase hk v hv i hi
    obtain ⟨o, ho⟩ := hA.readable k hbase hk v hv i hi
    exact ⟨o, hshow _ i o ho⟩
  · intro c outer hs
    rw [hp] at hs
    exact absurd hs (by simp)
  · intro c outer hs
    rw [hp] at hs
    exact absurd hs (by simp)
  · intro k
    rcases eq_or_ne k e with rfl | hne
    · exact Nat.le_of_eq hstamp
    · rw [Arena.stamp_of_shown (hcell k hne)]
      exact hA.below k
  · intro hextra
    rcases eq_or_ne 0 e with rfl | hne
    · rw [hstamp, hp]
      rfl
    · rw [Arena.stamp_of_shown (hcell 0 hne)]
      exact hA.unstamped hextra

section Record

variable (hA : Account terms h l log) (hx : h.now.arena.cell e = some x)
  (hdead : h.now.arena.cell copy = none) (hl : (l.record rest.length e copy rows).Describes b)
  (t : Arena.Touches {k | k = e ∨ k = copy ∨ k ∈ rows} h.now.arena b)
  (hb : b.cell e = some { x with mark := x.mark.withTopLevel (UInt32.ofNat h.past.length) })

include hA hl

/-- What the levels have of an array is no segment of the records. -/
theorem Account.origin_not_row {e' : Handle} (he' : e' ∈ h.now.entities) (k n : Nat) :
    origin (since log k n) e' ∉ rows := fun hk => by
  have hrow : origin (since log k n) e' ∈
      (l.record rest.length e copy rows).held (.records rest.length) := by
    rw [Ledger.held_record_records]
    exact hk
  rcases origin_since_cases log k n e' with hself | ⟨j, r, hr, -, horigin⟩
  · refine hl.not_mem_of_ne (p := .array) hrow (by simp) ?_
    rw [hself, Ledger.held_record (by simp) (by simp), hA.array]
    exact he'
  · refine hl.not_mem_of_ne (p := .copies j) hrow (by simp) ?_
    have hmem := hA.mem_copies hr
    rw [horigin]
    rcases eq_or_ne j rest.length with rfl | hj
    · rw [Ledger.held_record_copies]
      exact List.mem_append_left _ hmem
    · rw [Ledger.held_record (by simpa using hj) (by simp)]
      exact hmem

include hx hdead t hb

theorem Account.copiedAside {y : Arena.Cell} (hy : b.cell copy = some y) (hcopy : y.CopyOf x) :
    CopiedAside h log e copy b := by
  have hstamp := hA.stamp_of_level hb
  have haside : b.stamp copy = h.now.arena.stamp e := by
    rw [Arena.stamp_of_cell hy, Arena.stamp_of_cell hx, hcopy.1]
  have hsame : ∀ k, k ≠ e → k ≠ copy → k ∉ rows → b.shown k = h.now.arena.shown k :=
    fun k h1 h2 h3 => Arena.shown_congr (t.cell k fun hk => hk.elim h1 fun hk => hk.elim h2 h3)
  refine ⟨?_, haside, ?_, hstamp, ?_, ?_⟩
  · rintro i o ⟨z, hz, hi, ho⟩
    rw [hx] at hz
    cases hz
    obtain ⟨hi', hslot⟩ := hcopy.2 i hi
    exact ⟨y, hy, hi', hslot.trans ho⟩
  · rintro i o ⟨z, hz, hi, ho⟩
    rw [hx] at hz
    cases hz
    exact ⟨_, hb, hi, ho⟩
  · intro e' he' k hne
    have hlive : origin (since log k h.past.length) e' ≠ copy := fun heq => by
      obtain ⟨z, hz⟩ := hA.cell_origin he' k h.past.length
      rw [heq, hdead] at hz
      cases hz
    exact hsame _ hne hlive (hA.origin_not_row hl he' k _)
  · intro k
    rcases eq_or_ne k e with rfl | h1
    · exact Nat.le_of_eq hstamp
    rcases eq_or_ne k copy with rfl | h2
    · rw [haside]
      exact hA.below e
    by_cases h3 : k ∈ rows
    · rw [hl.stamp_of_segment (o := .records rest.length) trivial
        (by rw [Ledger.held_record_records]; exact h3)]
      exact Nat.zero_le _
    · rw [Arena.stamp_of_shown (hsame k h1 h2 h3)]
      exact hA.below k

/-- The account after an entity was copied aside, recorded and stamped. -/
theorem Account.record (hp : h.past = d :: rest) (he : e = 0 ∨ e ∈ h.now.entities)
    (hmade : ¬terms.wide → e = 0 ∨ e ∈ d.entities)
    (hplain : ¬terms.extra → e ≠ 0 ∧ ∀ r ∈ log rest.length, r.source ≠ e)
    (hhead : rows.head? = (l.held (.records rest.length)).head?)
    {y : Arena.Cell} (hy : b.cell copy = some y) (hcopy : y.CopyOf x) :
    Account terms ⟨⟨b, h.now.arrays, h.now.liveStacks⟩, h.past⟩ (l.record rest.length e copy rows)
      (recorded log rest.length ⟨e, copy⟩) where
  toHoldings := hA.toHoldings.record hp he hl hhead t.saves
  toMemory := (hA.copiedAside hx hdead hl t hb hy hcopy).memory hA.toHoldings hp he hA.toMemory
  enclosed hwide := (hA.enclosed hwide).record hp (hmade hwide)
  once hextra k := by
    rcases eq_or_ne k rest.length with rfl | hk
    · rw [recorded_self, List.map_append, List.nodup_append]
      refine ⟨hA.once hextra _, by simp, fun s hs s' hs' heq => ?_⟩
      obtain ⟨r, hr, rfl⟩ := List.mem_map.mp hs
      simp only [List.map_cons, List.map_nil, List.mem_singleton] at hs'
      exact (hplain hextra).2 r hr (heq.trans hs')
    · rw [recorded_ne hk]
      exact hA.once hextra k
  sourced hextra k r hr := by
    rcases eq_or_ne k rest.length with rfl | hk
    · rw [recorded_self, List.mem_append, List.mem_singleton] at hr
      rcases hr with hr | rfl
      · exact hA.sourced hextra _ r hr
      · exact (hplain hextra).1
    · rw [recorded_ne hk] at hr
      exact hA.sourced hextra k r hr
  unstamped hextra := by
    have hcopy0 : (0 : Handle) ≠ copy := fun h0 => by
      rw [← h0, Arena.cell_eq_none_iff] at hdead
      exact hdead hA.describes.sound.live_zero
    have hrows0 : (0 : Handle) ∉ rows := fun hk => by
      have hzero := hl.zero (.records rest.length)
      rw [Ledger.held_record_records] at hzero
      exact hzero hk
    have hshown : b.shown 0 = h.now.arena.shown 0 := Arena.shown_congr
      (t.cell 0 fun hk => hk.elim (Ne.symm (hplain hextra).1) fun hk => hk.elim hcopy0 hrows0)
    rw [Arena.stamp_of_shown hshown]
    exact hA.unstamped hextra

end Record

/-- Stamping an entity that was just copied aside. -/
theorem Holdings.stamp_recorded (hh : Holdings base h l log) (he : e = 0 ∨ e ∈ h.now.entities)
    (hx : h.now.arena.cell e = some x) (hdead : h.now.arena.cell copy = none)
    (t : Arena.Touches {k | k = copy ∨ k ∈ rows} h.now.arena b)
    (hl : (l.record n e copy rows).Describes b) (mark : Mark) :
    ∃ c, Arena.setMark e mark b = .ok () c ∧ c.cell e = some { x with mark := mark } ∧
      c.cell copy = b.cell copy ∧ (l.record n e copy rows).Describes c ∧
      Arena.Touches {k | k = e ∨ k = copy ∨ k ∈ rows} h.now.arena c := by
  have hne : e ≠ copy := by
    rintro rfl
    rw [hdead] at hx
    cases hx
  have hrecordable : ∀ o : Owner, o ≠ .array → e ∉ (l.record n e copy rows).held o := by
    intro o ho hk
    rcases he with rfl | he
    · exact hl.zero o hk
    · refine hl.not_mem_of_ne (p := .array) hk (Ne.symm ho) ?_
      rw [Ledger.held_record (by simp) (by simp), hh.array]
      exact he
  have hrows : e ∉ rows := fun hk =>
    hrecordable (.records n) (by simp) (by rw [Ledger.held_record_records]; exact hk)
  have hxb : b.cell e = some x := by
    rw [t.cell e fun hk => hk.elim hne hrows, hx]
  obtain ⟨c, hset, hr, hc⟩ := Arena.setMark_spec hl.sound hxb mark
  refine ⟨c, hset, hc, hr.cell copy (Ne.symm hne), hl.touch hr.toTouches ?_ ?_,
    (t.mono fun k hk => .inr hk).comp (hr.toTouches.mono fun k hk => .inl hk)⟩
  · rintro k rfl o ho
    refine hrecordable o ?_
    rintro rfl
    exact ho
  · rintro k rfl
    exact iff_of_true (Arena.live_iff_cell.mpr ⟨_, hc⟩) (Arena.live_iff_cell.mpr ⟨_, hxb⟩)

/-- An entity is recorded, or storage runs out; then nothing has changed, unless the program stops
there. -/
theorem Account.preserve_spec (hA : Account terms h l log) (content : Content)
    (he : e = 0 ∨ e ∈ h.now.entities)
    (hmade : ¬terms.wide → ∀ d rest, h.past = d :: rest → e = 0 ∨ e ∈ d.entities)
    (hplain : ¬terms.extra → e ≠ 0 ∧
      ∀ d rest, h.past = d :: rest → ∀ r ∈ log rest.length, r.source ≠ e) :
    (∃ b l' log', Arena.preserve content e h.now.arena = .ok () b ∧
      Account terms ⟨⟨b, h.now.arrays, h.now.liveStacks⟩, h.past⟩ l' log' ∧
      l'.SameStacks l ∧ (∃ copy, l'.openLevels log' h.past.length =
        OpenLevel.record (l.openLevels log h.past.length) ⟨e, copy⟩) ∧ b.stamp e = h.past.length ∧
      h.now.ArraysKept b) ∨
    ∃ f b, Arena.preserve content e h.now.arena = .error f b ∧ h.now.arena.OutOfStorage f ∧
      (¬f.stops → Account terms ⟨⟨b, h.now.arrays, h.now.liveStacks⟩, h.past⟩ l log ∧
        Arena.Touches ∅ h.now.arena b) := by
  obtain ⟨x, hx⟩ := hA.cell_recordable he
  obtain ⟨row, hentry, hrow⟩ := Arena.entry_of_cell hx
  have hmark : row.mark = x.mark := by rw [hrow]
  unfold Arena.preserve
  rw [ArenaM.reading_bind hA.depth_eq, ArenaM.reading_bind (f := fun a => a.entry e) hentry]
  simp only
  rw [hmark]
  cases hp : h.past with
  | nil =>
    have hle := hA.level_le
    rw [hp] at hle
    rw [if_neg (by decide), EStateM.bind_of_ok (Arena.checkLevel_of_le hle)]
    obtain ⟨b, hrun, hAb, hstamp, hkept⟩ := hA.stamp_spec he hx hp
    rw [hp] at hrun hAb hstamp
    exact .inl ⟨b, l, log, hrun, hAb, .refl l, ⟨e, rfl⟩, hstamp, hkept⟩
  | cons d rest =>
    have hpos : 0 < UInt32.ofNat (d :: rest).length := by
      rw [← hp, UInt32.lt_iff_toNat_lt, hA.toNat_depth, hp]
      exact Nat.succ_pos _
    have hn : h.past.length = rest.length + 1 := by rw [hp, List.length_cons]
    rw [if_pos hpos]
    rcases hA.copyAside_spec hn hx hentry content with
      ⟨copy, rows, b, y, hrun, hdead, hhead, t, hl, hy, hcopy⟩ | ⟨f, b, hrun, hout, hkept⟩
    · obtain ⟨c, hset, hc, hcopied, hlc, tc⟩ := hA.stamp_recorded he hx hdead t hl
        (x.mark.withTopLevel (UInt32.ofNat h.past.length))
      have hAc := hA.record hx hdead hlc tc hc hp he (fun hwide => hmade hwide d rest hp) (fun hextra =>
          ⟨(hplain hextra).1, (hplain hextra).2 d rest hp⟩) hhead (hcopied.trans hy) hcopy
      have hcopied := hA.copiedAside hx hdead hlc tc hc (hcopied.trans hy) hcopy
      refine .inl ⟨c, _, _, ?_, hp ▸ hAc,
        fun s => ⟨Ledger.held_record (by simp) (by simp), Ledger.values_record (by simp)⟩,
        ⟨copy, Ledger.openLevels_record hhead⟩, hp ▸ hA.stamp_of_level hc,
        hcopied.arraysKept hA.toHoldings hp he⟩
      have hle := hA.level_le
      rw [hp] at hset hle
      rw [EStateM.bind_of_ok hrun, EStateM.bind_of_ok (Arena.checkLevel_of_le hle)]
      exact hset
    · refine .inr ⟨f, b, EStateM.bind_of_error hrun, hout, fun hgoes => ?_⟩
      obtain ⟨hl, hsaves, hlimit, hcell⟩ := hkept hgoes
      refine ⟨?_, hl.sound, fun k _ => hcell k, hsaves, hlimit⟩
      have := hA.quiet hl (fun k _ => .inr (hcell k)) hsaves
      rwa [hp] at this

end BankedMemory
