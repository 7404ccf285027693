import BankedMemory.Proofs.Arena.Fill
import BankedMemory.Proofs.Checkpoint.Quiet

/-!
# Arrays while levels are open

A new array is in no record and carries the stamp of the level it is made in. An array that carries
the stamp of the current level can be written: if it is older than the level, its old contents are
in a copy.
-/

namespace BankedMemory

variable {terms : Terms} {base : Nat} {h : History} {l l' : Ledger} {log : Nat → List Record}
  {a b : Arena} {k : Nat} {e : Handle} {v : View} {F : Set Handle}

theorem Holdings.touch (hh : Holdings base h l log) (hl : l.Describes b)
    (hsaves : b.saves = h.now.arena.saves) :
    Holdings base ⟨⟨b, h.now.arrays, h.now.liveStacks⟩, h.past⟩ l log :=
  ⟨hl, hh.array, hh.root, hh.stack, hh.stackless, hh.liveStacks_nodup, hsaves.trans hh.saves,
    hh.saveless, hh.depth_le, hh.levels, hh.opened, hh.closed, hh.copies, hh.older, hh.base_le,
    hh.abandoned, hh.source⟩

/-- Arrays, copies and row 0 may be written over. -/
theorem Holdings.rewrite (hh : Holdings base h l log) (he : e = 0 ∨ e ∈ h.now.entities)
    (t : Arena.Touches {e} h.now.arena b) (hlive : b.Live e) :
    Holdings base ⟨⟨b, h.now.arrays, h.now.liveStacks⟩, h.past⟩ l log := by
  have hlive' : h.now.arena.Live e := by
    rcases he with rfl | he
    · exact hh.describes.sound.live_zero
    · rw [← hh.array] at he
      exact hh.describes.live_of_mem he
  refine hh.touch (hh.describes.touch t ?_ ?_) t.saves
  · rintro k rfl o ho
    rcases he with rfl | he
    · exact hh.describes.zero o
    · rw [← hh.array] at he
      refine hh.describes.not_mem_of_ne he ?_
      rintro rfl
      exact ho
  · rintro k rfl
    exact iff_of_true hlive hlive'

/-! ## Writing an element -/

/-- Slot `i` of `e` shows `o`, and the other slots of the client's arrays what they showed. -/
structure Client.Stored (c : Client) (e : Handle) (i : Nat) (o : Object) (b : Arena) : Prop where
  here : b.Shows e i o
  elsewhere : ∀ k ∈ c.entities, ∀ j p, (k = e → j ≠ i) → c.arena.Shows k j p → b.Shows k j p

section Write

variable (hA : Account terms h l log) (hv : v ∈ h.now.arrays) {i : Nat} (hi : i < v.size.toNat)

/-- Writing a slot leaves the stamps. -/
theorem Arena.stamp_written {x : Cell} {o : Object} (hr : Rewrites {e} a b) (hx : a.cell e = some x)
    (hb : b.cell e = some (x.put i o.encode)) (k : Handle) : b.stamp k = a.stamp k := by
  rcases eq_or_ne k e with rfl | hk
  · rw [stamp_of_cell hb, stamp_of_cell hx]
    rfl
  · exact stamp_of_shown (shown_congr (hr.cell k hk))

include hA hv hi

/-- An array with the stamp of the current level is written: older levels do not look into it. -/
theorem Account.memory_written {x : Arena.Cell} {o : Object}
    (hstamp : h.now.arena.stamp v.ent = h.past.length)
    (hr : Arena.Rewrites {v.ent} h.now.arena b) (hx : h.now.arena.cell v.ent = some x)
    (hslot : x.HasSlot i) (hb : b.cell v.ent = some (x.put i o.encode)) :
    Memory terms.base ⟨⟨b, h.now.arrays, h.now.liveStacks⟩, h.past⟩ log := by
  have he := Client.mem_entities hv (size_ne_zero hi)
  have ho := Object.length_encode o
  have hcell : ∀ k, k ≠ v.ent → b.shown k = h.now.arena.shown k := fun k hk =>
    Arena.shown_congr (hr.cell k hk)
  have hmark := Arena.stamp_written hr hx hb
  refine ⟨?_, ?_, ?_, ?_⟩
  · intro k hbase hk w hw j hj
    obtain ⟨p, hp⟩ := hA.readable k hbase hk w hw j hj
    rcases eq_or_ne (origin (since log k h.past.length) w.ent) v.ent with heq | hne
    · -- the slot written shows the new object, the others what they did
      rw [heq] at hp
      obtain ⟨y, hy, hhas, hslot'⟩ := hp
      rw [hx] at hy
      cases hy
      rcases eq_or_ne j i with rfl | hji
      · refine ⟨o, ?_⟩
        rw [heq]
        exact ⟨_, hb, hhas.put hslot ho, Arena.Cell.slot_put_self hslot ho⟩
      · refine ⟨p, ?_⟩
        rw [heq]
        refine ⟨_, hb, hhas.put hslot ho, ?_⟩
        rw [Arena.Cell.slot_put_ne hslot ho hji, hslot']
    · exact ⟨p, hp.of_shown (hcell _ hne)⟩
  · intro c outer hsuffix hbase w hw j hj
    obtain ⟨p, hread, hp⟩ := hA.kept c outer hsuffix hbase w hw j hj
    refine ⟨p, hread, hp.of_shown (hcell _ fun heq => ?_)⟩
    have hwc : w.ent ∈ c.entities := Client.mem_entities hw (size_ne_zero hj)
    rcases origin_since_cases log outer.length h.past.length w.ent with hself | ⟨m, r, hr, -, hcopy⟩
    · have hwv : w.ent = v.ent := hself.symm.trans heq
      rw [hwv] at hwc heq
      exact hA.moved hstamp hsuffix hbase hwc heq
    · exact hA.copy_not_entity hr ((hcopy.symm.trans heq) ▸ he)
  · intro c outer hsuffix hbase e' he'
    rw [hmark]
    exact hA.stamped c outer hsuffix hbase e' he'
  · intro k
    rw [hmark]
    exact hA.below k

theorem Account.write_spec (hstamp : h.now.arena.stamp v.ent = h.past.length) (o : Object) :
    ∃ b, Arena.writeSlot v.ent i o h.now.arena = .ok () b ∧
      Account terms ⟨⟨b, h.now.arrays, h.now.liveStacks⟩, h.past⟩ l log ∧
      h.now.Stored v.ent i o b ∧ b.stamp v.ent = h.past.length := by
  have he := Client.mem_entities hv (size_ne_zero hi)
  obtain ⟨-, x, hx, hslot, -⟩ := hA.shows_now hA.base_le hv hi
  obtain ⟨b, hrun, hr, hb⟩ := Arena.writeSlot_spec hA.describes.sound hx hslot o
  have ho := Object.length_encode o
  refine ⟨b, hrun, ⟨hA.toHoldings.rewrite (.inr he) hr.toTouches (Arena.live_iff_cell.mpr ⟨_, hb⟩),
    hA.memory_written hv hi hstamp hr hx hslot hb, fun hwide => (hA.enclosed hwide).move _,
    hA.once, hA.sourced, fun hextra => ?_⟩, ?_, (Arena.stamp_written hr hx hb _).trans hstamp⟩
  · rw [Arena.stamp_written hr hx hb]
    exact hA.unstamped hextra
  · refine ⟨⟨_, hb, hslot.put hslot ho, Arena.Cell.slot_put_self hslot ho⟩, fun k _ j p hne hp => ?_⟩
    rcases eq_or_ne k v.ent with rfl | hk
    · obtain ⟨y, hy, hhas, hshow⟩ := hp
      rw [hx] at hy
      cases hy
      refine ⟨_, hb, hhas.put hslot ho, ?_⟩
      rw [Arena.Cell.slot_put_ne hslot ho (hne rfl), hshow]
    · exact hp.of_shown (Arena.shown_congr (hr.cell k hk))

end Write

/-! ## Making an array -/

theorem Client.entities_cons {v : View} {arrays : List View} {own : List Stack}
    (hsize : v.size ≠ 0) : (Client.mk b (v :: arrays) own).entities =
      v.ent :: (Client.mk a arrays own).entities := by
  simp [Client.entities, hsize]

theorem Client.entities_cons_empty {v : View} {arrays : List View} {own : List Stack}
    (hsize : v.size = 0) : (Client.mk b (v :: arrays) own).entities =
      (Client.mk a arrays own).entities := by
  simp [Client.entities, hsize]

theorem Holdings.older_cons (hh : Holdings base h l log) (v : View) :
    ((v :: h.now.arrays) :: h.past.map (·.arrays)).Pairwise fun d c => c <:+ d := by
  obtain ⟨hnow, hpast⟩ := List.pairwise_cons.mp hh.older
  exact List.pairwise_cons.mpr ⟨fun c hc => (hnow c hc).trans (List.suffix_cons v _), hpast⟩

theorem Account.add_empty (hA : Account terms h l log) (hoffset : v.offset = 0) (hsize : v.size = 0)
    (hent : v.ent = 0) :
    Account terms ⟨⟨h.now.arena, v :: h.now.arrays, h.now.liveStacks⟩, h.past⟩ l log := by
  have hentities : (Client.mk h.now.arena (v :: h.now.arrays) h.now.liveStacks).entities =
      h.now.entities := Client.entities_cons_empty hsize
  refine ⟨⟨hA.describes, hA.array.trans hentities.symm, ?_, hA.stack, hA.stackless,
    hA.liveStacks_nodup, hA.saves, hA.saveless, hA.depth_le, hA.levels, hA.opened, hA.closed,
    hA.copies, hA.older_cons v, hA.base_le, hA.abandoned, ?_⟩, ⟨?_, hA.kept, ?_, hA.below⟩,
    fun hwide => (hA.enclosed hwide).move _, hA.once, hA.sourced, hA.unstamped⟩
  · intro w hw
    rcases List.mem_cons.mp hw with rfl | hw
    · exact ⟨hoffset, fun _ => hent⟩
    · exact hA.root w hw
  · simp only [hentities]
    exact hA.source
  · intro k hbase hk w hw i hi
    rcases List.mem_cons.mp hw with rfl | hw
    · exact absurd hsize (size_ne_zero hi)
    · exact hA.readable k hbase hk w hw i hi
  · simp only [hentities]
    exact hA.stamped

/-- A row that is not live is recorded nowhere, and no level looks into it. -/
theorem Holdings.origin_of_none (hh : Holdings base h l log) (hdead : h.now.arena.cell e = none)
    (hk : base ≤ k) (n : Nat) : origin (since log k n) e = e := by
  refine origin_of_not_source fun r hr heq => ?_
  obtain ⟨j, hkj, -, hr⟩ := mem_since.mp hr
  rcases hh.source (Nat.le_trans hk hkj) hr with h0 | hmem
  · rw [← heq, h0, Arena.cell_eq_none_iff] at hdead
    exact hdead hh.describes.sound.live_zero
  · obtain ⟨x, hx⟩ := hh.cell_entity hmem
    rw [heq, hdead] at hx
    cases hx

/-- The client has other arrays and other rows for them; what else is held is as it was. -/
theorem Holdings.rearray (hh : Holdings base h l log) {arrays : List View} {past : List Client}
    {rows : List Handle} {base' : Nat} (hlen : past.length = h.past.length)
    (hrows : rows = (Client.mk b arrays h.now.liveStacks).entities)
    (hl : (l.set .array rows (l.values .array)).Describes b)
    (hsaves : b.saves = h.now.arena.saves)
    (hroot : ∀ v ∈ arrays, v.offset = 0 ∧ (v.size = 0 → v.ent = 0))
    (holder : (arrays :: past.map (·.arrays)).Pairwise fun d c => c <:+ d)
    (hbase : base' ≤ past.length) (habandoned : Abandoned base' past log)
    (hsource : ∀ {k : Nat} {r : Record}, base' ≤ k → r ∈ log k → r.source = 0 ∨ r.source ∈ rows) :
    Holdings base' ⟨⟨b, arrays, h.now.liveStacks⟩, past⟩ (l.set .array rows (l.values .array)) log := by
  have hheld : ∀ o : Owner, o ≠ .array → (l.set .array rows (l.values .array)).held o = l.held o :=
    fun o ho => Ledger.held_set_ne ho
  have hvalues : (l.set .array rows (l.values .array)).values = l.values :=
    Function.update_eq_self ..
  have hrecords := fun j => hheld (.records j) (by simp)
  exact
    { describes := hl
      array := Ledger.held_set_self.trans hrows
      root := hroot
      stack := fun s hs => by
        rw [hheld _ (by simp)]
        exact hh.stack s hs
      stackless := fun s hs => (hheld _ (by simp)).trans (hh.stackless s hs)
      liveStacks_nodup := hh.liveStacks_nodup
      saves := by
        rw [hheld _ (by simp), hsaves]
        exact hh.saves
      saveless := fun hnil => by
        rw [hheld _ (by simp)] at hnil
        have hpast := hh.saveless hnil
        rw [← List.length_eq_zero_iff, ← hlen, List.length_eq_zero_iff] at hpast
        exact hpast
      depth_le := by
        rw [hlen]
        exact hh.depth_le
      levels := by
        rw [hvalues, hh.levels, hlen]
        refine List.map_congr_left fun k _ => ?_
        unfold Ledger.level
        rw [hrecords]
      opened := fun k hk => by
        rw [hrecords, hvalues]
        exact hh.opened k (hlen ▸ hk)
      closed := fun k hk => by
        rw [hrecords]
        exact hh.closed k (hlen ▸ hk)
      copies := fun k => (hheld _ (by simp)).trans (hh.copies k)
      older := holder
      base_le := hbase
      abandoned := habandoned
      source := fun hk hr => hrows ▸ hsource hk hr }

theorem Holdings.add_array (hh : Holdings base h l log) (hoffset : v.offset = 0) (hsize : v.size ≠ 0)
    (hl : (l.set .array (v.ent :: l.held .array) (l.values .array)).Describes b)
    (hsaves : b.saves = h.now.arena.saves) :
    Holdings base ⟨⟨b, v :: h.now.arrays, h.now.liveStacks⟩, h.past⟩
      (l.set .array (v.ent :: l.held .array) (l.values .array)) log := by
  refine hh.rearray rfl ?_ hl hsaves (fun w hw => ?_) (hh.older_cons v) hh.base_le hh.abandoned
    fun hk hr => ?_
  · rw [Client.entities_cons (a := h.now.arena) hsize, hh.array]
  · rcases List.mem_cons.mp hw with rfl | hw
    · exact ⟨hoffset, fun h0 => absurd h0 hsize⟩
    · exact hh.root w hw
  · rw [hh.array]
    exact (hh.source hk hr).imp_right (List.mem_cons_of_mem _)

theorem Account.add_array (hA : Account terms h l log) (hoffset : v.offset = 0) (hsize : v.size ≠ 0)
    (hl : (l.set .array (v.ent :: l.held .array) (l.values .array)).Describes b)
    (t : Arena.Touches {v.ent} h.now.arena b) (hdead : h.now.arena.cell v.ent = none)
    (hshow : ∀ i < v.size.toNat, ∃ o, b.Shows v.ent i o) (hstamp : b.stamp v.ent = h.past.length) :
    Account terms ⟨⟨b, v :: h.now.arrays, h.now.liveStacks⟩, h.past⟩
      (l.set .array (v.ent :: l.held .array) (l.values .array)) log := by
  have hentities : (Client.mk b (v :: h.now.arrays) h.now.liveStacks).entities =
      v.ent :: h.now.entities := Client.entities_cons hsize
  have hnew : v.ent ∉ h.now.entities := fun he => by
    obtain ⟨x, hx⟩ := hA.cell_entity he
    rw [hdead] at hx
    cases hx
  have hself : ∀ k, terms.base ≤ k → origin (since log k h.past.length) v.ent = v.ent :=
    fun k hk => hA.origin_of_none hdead hk h.past.length
  have hcell : ∀ k, k ≠ v.ent → b.shown k = h.now.arena.shown k := fun k hk =>
    Arena.shown_congr (t.cell k hk)
  have hsame : ∀ e ∈ h.now.entities, ∀ k, b.shown (origin (since log k h.past.length) e) =
      h.now.arena.shown (origin (since log k h.past.length) e) := fun e he k => by
    refine hcell _ fun heq => ?_
    obtain ⟨x, hx⟩ := hA.cell_origin he k h.past.length
    rw [heq, hdead] at hx
    cases hx
  have hbelow : ∀ k, b.stamp k ≤ h.past.length := fun k => by
    rcases eq_or_ne k v.ent with rfl | hk
    · exact Nat.le_of_eq hstamp
    · rw [Arena.stamp_of_shown (hcell k hk)]
      exact hA.below k
  have hold := hA.toMemory.transport hA.toHoldings hsame hbelow h.now.liveStacks
  refine ⟨hA.toHoldings.add_array hoffset hsize hl t.saves, ⟨?_, hold.kept, ?_, hbelow⟩,
    fun hwide => ?_, hA.once, hA.sourced, fun hextra => ?_⟩
  · intro k hbase hk w hw i hi
    rcases List.mem_cons.mp hw with rfl | hw
    · obtain ⟨o, ho⟩ := hshow i hi
      refine ⟨o, ?_⟩
      rw [hself k hbase]
      exact ho
    · exact hold.readable k hbase hk w hw i hi
  · intro c outer hs hbase e he
    rw [hentities] at he
    rcases List.mem_cons.mp he with rfl | he
    · have hlt := depth_of_suffix hs
      rw [hself _ (Nat.le_succ_of_le hbase), hstamp]
      exact iff_of_true hlt (.inr fun hc => hnew (Client.entities_subset (hA.arrays_suffix hs) hc))
    · exact hold.stamped c outer hs hbase e he
  · exact (hA.enclosed hwide).held (fun k hk => by rwa [Ledger.held_set_ne (by simp)])
      (fun k => Ledger.held_set_ne (by simp)) fun k => Ledger.held_set_ne (by simp)
  · have hzero : (0 : Handle) ≠ v.ent := fun h0 => by
      rw [← h0, Arena.cell_eq_none_iff] at hdead
      exact hdead hA.describes.sound.live_zero
    rw [Arena.stamp_of_shown (hcell 0 hzero)]
    exact hA.unstamped hextra

theorem Account.newArray_spec (hA : Account terms h l log) (size : Nat) :
    (∃ v b l', Arena.newArray size h.now.arena = .ok (.composite .array v) b ∧
      Account terms ⟨⟨b, v :: h.now.arrays, h.now.liveStacks⟩, h.past⟩ l' log ∧
      l'.SameStacks l ∧ (v.size ≠ 0 → ∃ y, b.cell v.ent = some y ∧
        y.mark = .ofLevel (UInt32.ofNat h.past.length)) ∧
      h.now.ArraysKept b ∧ ∀ i < v.size.toNat, b.Shows v.ent i .null) ∨
    ∃ f, Arena.newArray size h.now.arena = .error f h.now.arena := by
  have hs := hA.describes.sound
  unfold Arena.newArray
  by_cases h0 : size = 0
  · rw [if_pos h0]
    exact .inl ⟨⟨.unlimited, .localVM, 0, 0, 0⟩, h.now.arena, l, rfl, hA.add_empty rfl rfl rfl,
      .refl l, fun hsize => absurd rfl hsize, .refl _, fun i hi => absurd hi (Nat.not_lt_zero i)⟩
  by_cases hlong : Arena.longestArray < size
  · rw [if_neg h0, if_pos hlong]
    exact .inr ⟨.arrayTooLong, rfl⟩
  rw [if_neg h0, if_neg hlong]
  have hbytes := Arena.arrayBytes_le (Nat.not_lt.mp hlong)
  unfold Arena.longestArray at hlong
  have hcount : (UInt32.ofNat size).toNat = size := by
    rw [UInt32.toNat_ofNat']
    omega
  rcases Arena.allocateCollectable_spec hs hbytes .array with
    ⟨e, b, hrun, hne, hdead, t, n, hn, hb⟩ | ⟨f, hrun, -⟩
  · have hl := hA.describes.take (o := .array) t id hdead (Arena.live_iff_cell.mpr ⟨_, hb⟩)
      (List.Perm.refl _)
    have hdepth : b.depth = .ok (UInt32.ofNat h.past.length) := by
      have := hl.depth_eq (by rw [Ledger.held_set_ne (by simp), t.saves, hA.saves])
        (by rw [Ledger.held_set_ne (by simp), Ledger.values_set_ne (by simp)]; exact hA.no_values)
      rwa [Ledger.values_set_ne (by simp), hA.levels, List.length_map, List.length_range] at this
    have hfits : size * Slot.width ≤ (List.replicate n (0 : UInt8)).length := by
      rw [List.length_replicate]
      exact hn
    obtain ⟨c, hfill, hr, y, hy, hmark, hnull⟩ :=
      Arena.fillNew_spec t.sound hb hfits hdepth hA.level_le
    have tc : Arena.Touches {e} h.now.arena c := t.comp hr.toTouches
    have hshow : ∀ i < (UInt32.ofNat size).toNat, c.Shows e i .null := fun i hi => by
      rw [hcount] at hi
      exact ⟨y, hy, hnull i hi⟩
    refine .inl ⟨⟨.unlimited, .localVM, UInt32.ofNat size, e, 0⟩, c, _, ?_,
      hA.add_array rfl ?_ (hA.describes.take tc id hdead (Arena.live_iff_cell.mpr ⟨y, hy⟩)
        (List.Perm.refl _)) tc hdead (fun i hi => ⟨.null, hshow i hi⟩) ?_,
      fun s => ⟨Ledger.held_set_ne (by simp), Ledger.values_set_ne (by simp)⟩,
      fun _ => ⟨y, hy, hmark⟩, ?_, hshow⟩
    · rw [EStateM.bind_of_ok hrun, EStateM.bind_of_ok (ArenaM.orUndo_of_ok hfill)]
      rfl
    · intro hzero
      simp only at hzero
      rw [hzero] at hcount
      exact h0 hcount.symm
    · rw [Arena.stamp_of_cell hy, hmark, Mark.topLevel_ofLevel hA.level_le, hA.toNat_depth]
    · refine Client.arraysKept_of_cell fun k hk => tc.cell k ?_
      rintro rfl
      obtain ⟨z, hz⟩ := hA.cell_entity hk
      rw [hdead] at hz
      cases hz
  · exact .inr ⟨f, EStateM.bind_of_error hrun⟩

end BankedMemory
