import BankedMemory.Proofs.Arena.Calls

/-!
# The reserved entity

Handle 0 stands for "no entity", so row 0 is to own no storage. It stays reserved whatever calls are
made, and no call allocates it. That it stays without storage is true as far as it trades with no
other row: `exchange` takes the reserved handle as it takes any other, and so does the undoing of a
record, where freeing it is refused. `Spared` are the arenas reached without such a trade.
-/

namespace BankedMemory.Arena

/-- The reserved row trades with itself at most. -/
def sparesReserved : Trading := fun _ h k => h = k ∨ h ≠ 0 ∧ k ≠ 0

/-- The arenas that calls lead to in none of which the reserved row traded storage with another. -/
inductive Spared (limit : Nat) : Arena → Prop where
  | fresh : Spared limit (.empty limit)
  | call {a : Arena} (reached : Spared limit a) (call : Call)
      (spares : call.Trades sparesReserved a) : Spared limit (call.run.after a)

/-- The handle of what a call allocated, as far as its reply names one. An array of no elements has
nothing allocated. -/
def Call.allocated : Call → Reply → Option Handle
  | .allocate .., .handle h | .allocateCollectable .., .handle h | .newStack, .handle h => some h
  | .newArray size, .object (.composite .array v) => if size = 0 then none else some v.ent
  | .save, .object (.save level) => some level.records
  | _, _ => none

/-- Row 0 is reserved and owns nothing. -/
def OwnsNothing (a : Arena) : Prop := ∃ e, a.entry 0 = .ok e ∧ e.kind = .reserved ∧ e.capacity = 0

variable {limit : Nat} {a b c : Arena} {h : Handle} {e : Entry} {f : Fault}

/-! ## What is allocated -/

theorem Sound.allocate_ne_zero (hs : a.Sound) {size : Nat} {content : Content}
    (hrun : allocate size content a = .ok h b) : h ≠ 0 := by
  obtain ⟨k, e, hfind, -, -, -, hok⟩ | ⟨-, ⟨-, -, hroom, hok⟩ | ⟨f, hfail, -⟩⟩ :=
    allocate_cases hs size content
  · cases hok.symm.trans hrun
    rintro rfl
    exact (hs.mem_freed_iff.mp (List.mem_of_find?_eq_some hfind)).2 hs.live_zero
  · cases hok.symm.trans hrun
    have hpos := hs.size_pos
    intro hzero
    have htoNat := congrArg UInt32.toNat hzero
    rw [UInt32.toNat_ofNat_of_lt' hroom, UInt32.toNat_zero] at htoNat
    omega
  · cases hfail.symm.trans hrun

theorem Sound.allocateCollectable_ne_zero (hs : a.Sound) {size : Nat} {content : Content}
    (hrun : allocateCollectable size content a = .ok h b) : h ≠ 0 := by
  obtain ⟨k, c, hfirst, hrest⟩ := EStateM.exists_of_bind_ok hrun
  cases hrest
  exact hs.allocate_ne_zero hfirst

theorem Sound.new_ne_zero (hs : a.Sound) {s : Stack} (hrun : Stack.new a = .ok s b) :
    s.handle ≠ 0 := by
  obtain ⟨seg, c, hseg, hrest⟩ := EStateM.exists_of_bind_ok hrun
  cases hrest
  obtain ⟨k, d, hfirst, hrest⟩ := EStateM.exists_of_bind_ok hseg
  obtain ⟨_, _, _, hrest⟩ := EStateM.exists_of_bind_ok hrest
  cases hrest
  exact hs.allocate_ne_zero hfirst

theorem Sound.newArray_ne_zero (hs : a.Sound) {size : Nat} {o : Object} (hsize : size ≠ 0)
    (hrun : newArray size a = .ok o b) : ∃ v, o = .composite .array v ∧ v.ent ≠ 0 := by
  unfold newArray at hrun
  rw [if_neg hsize] at hrun
  split at hrun
  · cases hrun
  · obtain ⟨k, c, hfirst, hrest⟩ := EStateM.exists_of_bind_ok hrun
    obtain ⟨_, _, _, hrest⟩ := EStateM.exists_of_bind_ok hrest
    cases hrest
    exact ⟨_, rfl, hs.allocateCollectable_ne_zero hfirst⟩

theorem Sound.save_ne_zero (hs : a.Sound) {o : Object} (hrun : save a = .ok o b) :
    ∃ level, o = .save level ∧ level.records ≠ 0 := by
  obtain ⟨_, c, hopen, hrun⟩ := EStateM.exists_of_bind_ok hrun
  have hc : c.Sound := (steps_openSaveStack (T := anyTrade)).sound hs hopen
  obtain ⟨depth, d, hdepth, hrun⟩ := EStateM.exists_of_bind_ok hrun
  have hd : d.Sound := (Steps.reading (T := anyTrade) _).sound hc hdepth
  obtain ⟨-, hrun⟩ := EStateM.of_refuse_ok hrun
  obtain ⟨s, _, hnew, hrun⟩ := EStateM.exists_of_bind_ok hrun
  obtain ⟨_, _, _, hrun⟩ := EStateM.exists_of_bind_ok hrun
  obtain ⟨_, _, _, hrun⟩ := EStateM.exists_of_bind_ok hrun
  cases hrun
  exact ⟨_, rfl, hd.new_ne_zero hnew⟩

theorem Sound.allocated_ne_zero (hs : a.Sound) {call : Call} {r : Reply}
    (hrun : call.run a = .ok r b) (hr : call.allocated r = some h) : h ≠ 0 := by
  cases call with
  | allocate size content =>
    obtain ⟨k, hfirst, rfl⟩ := EStateM.exists_of_map_ok hrun
    cases hr
    exact hs.allocate_ne_zero hfirst
  | allocateCollectable size content =>
    obtain ⟨k, hfirst, rfl⟩ := EStateM.exists_of_map_ok hrun
    cases hr
    exact hs.allocateCollectable_ne_zero hfirst
  | newStack =>
    obtain ⟨s, c, hnew, hrest⟩ := EStateM.exists_of_bind_ok hrun
    cases hrest
    cases hr
    exact hs.new_ne_zero hnew
  | newArray size =>
    obtain ⟨o, harray, rfl⟩ := EStateM.exists_of_map_ok hrun
    rcases eq_or_ne size 0 with rfl | hsize
    · obtain ⟨v, rfl⟩ : ∃ v, o = .composite .array v := by
        cases harray
        exact ⟨_, rfl⟩
      cases hr
    · obtain ⟨v, rfl, hv⟩ := hs.newArray_ne_zero hsize harray
      cases (if_neg hsize).symm.trans hr
      exact hv
  | save =>
    obtain ⟨o, hsave, rfl⟩ := EStateM.exists_of_map_ok hrun
    obtain ⟨level, rfl, hrec⟩ := hs.save_ne_zero hsave
    cases hr
    exact hrec
  | _ => cases hr

/-! ## What row 0 owns -/

theorem ownsNothing_empty : (Arena.empty limit).OwnsNothing := ⟨.reserved, rfl, rfl, rfl⟩

theorem OwnsNothing.of_row (owns : a.OwnsNothing)
    (hrow : ∀ e, a.table[0]? = some e →
      ∃ f, b.table[0]? = some f ∧ f.kind = e.kind ∧ f.capacity = e.capacity) : b.OwnsNothing := by
  obtain ⟨e, he, hkind, hcap⟩ := owns
  obtain ⟨f, hf, hk, hc⟩ := hrow e (entry_eq_ok_iff.mp he).1
  refine ⟨f, entry_eq_ok_iff.mpr ⟨hf, ?_⟩, hk.trans hkind, hc.trans hcap⟩
  rw [hk, hkind]
  exact nofun

theorem modify_row_zero {rows : Array Entry} {g : Entry → Entry} (hne : h ≠ 0)
    (hrow : rows[0]? = some e) : (rows.modify h.toNat g)[0]? = some e := by
  have hne' : h.toNat ≠ 0 := toNat_ne hne
  rw [Array.getElem?_modify, if_neg hne', hrow]

/-- No step but a trade takes storage to row 0 or changes its kind. -/
theorem Step.ownsNothing (step : Step sparesReserved a b) (hs : a.Sound) (owns : a.OwnsNothing) :
    b.OwnsNothing := by
  refine owns.of_row fun e he => ?_
  cases step with
  | @reuse h r size content first row free room =>
    have hne : h ≠ 0 := by
      rintro rfl
      exact (hs.mem_freed_iff.mp (List.mem_of_find?_eq_some first)).2 hs.live_zero
    rw [reuse_eq row]
    exact ⟨e, modify_row_zero hne he, rfl, rfl⟩
  | append content none fits possible room =>
    rw [append_eq]
    refine ⟨e, ?_, rfl, rfl⟩
    rw [Array.getElem?_push, if_neg hs.size_pos.ne, he]
  | @free h r live owned =>
    have hne : h ≠ 0 := by
      rintro rfl
      exact owned ((hs.reserved (entry_eq_ok_iff.mp live).1).mpr rfl)
    exact ⟨e, modify_row_zero hne he, rfl, rfl⟩
  | overwrite live after before => exact ⟨e, he, rfl, rfl⟩
  | @setMark h r live mark =>
    rcases eq_or_ne h 0 with rfl | hne
    · refine ⟨{ e with mark }, ?_, rfl, rfl⟩
      rw [UInt32.toNat_zero, Array.getElem?_modify, if_pos rfl, he]
      rfl
    · exact ⟨e, modify_row_zero hne he, rfl, rfl⟩
  | lowerTopLevels level =>
    refine ⟨lowerRow level e, ?_, (lowerRow_place level e).2.2, (lowerRow_place level e).2.1⟩
    rw [Array.getElem?_map, he]
    rfl
  | exchange live live' allowed =>
    rcases allowed with rfl | ⟨hh, hk⟩
    · cases live.symm.trans live'
      rw [trade_self (entry_eq_ok_iff.mp live).1]
      exact ⟨e, he, rfl, rfl⟩
    · exact ⟨e, modify_row_zero hk (modify_row_zero hh he), rfl, rfl⟩
  | count => exact ⟨e, he, rfl, rfl⟩
  | openSaves s => exact ⟨e, he, rfl, rfl⟩

theorem Spared.ownsNothing (spared : Spared limit a) : a.Sound ∧ a.OwnsNothing := by
  induction spared with
  | fresh => exact ⟨sound_empty limit, ownsNothing_empty⟩
  | call before call spares ih =>
    have reach := steps_run spares ih.1
    exact ⟨reach.sound ih.1, reach.keeps (fun _ _ step => step.ownsNothing) ih.1 ih.2⟩

/-- No element, however narrow, lies in a row without storage. -/
theorem OwnsNothing.span (owns : a.OwnsNothing) (hs : a.Sound) {w : Nat} (hw : 0 < w) (i : Nat) :
    a.span 0 i w = .error (missed i w) := by
  obtain ⟨e, he, -, hcap⟩ := owns
  rw [hs.placed.span_of_entry he, if_neg (by omega)]

theorem OwnsNothing.read (owns : a.OwnsNothing) (hs : a.Sound) {w : Nat} (hw : 0 < w) (i : Nat) :
    a.read 0 i w = .error (missed i w) :=
  bind_eq_of_error (owns.span hs hw i)

theorem OwnsNothing.write (owns : a.OwnsNothing) (hs : a.Sound) {src : List UInt8}
    (hsrc : src ≠ []) (i : Nat) : write 0 i src a = .error (missed i src.length) a := by
  unfold Arena.write
  rw [owns.span hs (List.length_pos_iff.mpr hsrc) i]

/-- Row 0 stays reserved and nothing allocated is ever named by handle 0. As long as it has traded
storage with no other row, it owns nothing, and no element is read or written through handle 0: that
is an error, or a stop at the last offset whose product is a word. -/
theorem reserved_owns_nothing (reached : Reachable limit a) :
    (∃ e, a.table[0]? = some e ∧ e.kind = .reserved) ∧
      (∀ (call : Call) (r : Reply) (b : Arena) (h : Handle),
        call.run a = .ok r b → call.allocated r = some h → h ≠ 0) ∧
      (Spared limit a → a.OwnsNothing ∧ a.contents 0 = some [] ∧
        (∀ i w, 0 < w → ∃ f, a.read 0 i w = .error f ∧ Missed i w f) ∧
        ∀ i src, src ≠ [] →
          ∃ f, Arena.write 0 i src a = .error f a ∧ Missed i src.length f) := by
  obtain ⟨-, hs⟩ := reached.reach
  refine ⟨?_, fun _ _ _ _ => hs.allocated_ne_zero, fun spared => ?_⟩
  · have hrow := Array.getElem?_eq_getElem hs.size_pos
    exact ⟨_, hrow, (hs.reserved hrow).mpr rfl⟩
  · obtain ⟨-, owns⟩ := spared.ownsNothing
    refine ⟨owns, ?_, fun i w hw => ⟨_, owns.read hs hw i, missed_spec i w⟩,
      fun i src hsrc => ⟨_, owns.write hs hsrc i, missed_spec i src.length⟩⟩
    obtain ⟨e, he, -, hcap⟩ := owns
    have hcell := cell_eq_of_entry he
    have hnil := List.eq_nil_of_length_eq_zero ((hs.placed.length_cell he hcell).trans hcap)
    rw [hs.contents_eq, hcell, Option.map_some, hnil]

/-- Two entities trade storage, which leaves the reserved one out. -/
theorem reserved_owns_nothing_spared :
    let a := (Call.exchange 1 2).run.after ((Call.newStack).run.after
      ((Call.allocate 16 .string).run.after (.empty 1000)))
    Reachable 1000 a ∧ a.OwnsNothing ∧
      ∃ f, a.read 0 0 1 = .error f ∧ f.report.condition = .unregistered := by
  have reached : Reachable 1000 _ :=
    ((Reachable.fresh.call (.allocate 16 .string)).call .newStack).call (.exchange 1 2)
  have spared : Spared 1000 _ :=
    ((Spared.fresh.call (.allocate 16 .string) trivial).call .newStack trivial).call
      (.exchange 1 2) fun _ _ => .inr ⟨by decide, by decide⟩
  obtain ⟨-, -, hspared⟩ := reserved_owns_nothing reached
  obtain ⟨owns, -, hread, -⟩ := hspared spared
  obtain ⟨f, hfail, missed⟩ := hread 0 1 Nat.one_pos
  exact ⟨reached, owns, f, hfail, missed.error (by decide)⟩

/-- An entity of 16 bytes trades with the reserved one, which then shows all of them. -/
theorem reserved_given_storage :
    ∃ a, Reachable 64 a ∧ ¬a.OwnsNothing ∧ a.read 0 0 16 = .ok (List.replicate 16 0) := by
  have reached : Reachable 64 _ :=
    (Reachable.fresh.call (.allocate 16 .string)).call (.exchange 0 1)
  have hread : Arena.read ((Call.exchange 0 1).run.after
      ((Call.allocate 16 .string).run.after (.empty 64))) 0 0 16 = .ok (List.replicate 16 0) := by
    decide +kernel
  refine ⟨_, reached, fun owns => ?_, hread⟩
  have hfail := owns.read reached.reach.2 (show 0 < 16 by decide) 0
  cases hread.symm.trans hfail

end BankedMemory.Arena
