import BankedMemory.Proofs.Stack.Layout

/-!
# What the operations on a stack do

Each operation takes a stack that is `Laid` out to one that is laid out with the new values, and
touches no cell outside its segments, one newly linked excepted. `Pushed` lists what a push can come
to; the other operations fail on an index or an empty stack alone.
-/

namespace BankedMemory

namespace Arena

variable {a b : Arena} {h seg : Handle} {x : Cell} {o : Object} {segs : List Handle}
  {vals : List Object} {next next' : Option Handle} {i k : Nat}

/-! ## Writing into a segment -/

/-- A header written with a lower count leaves the values below it. -/
theorem Cell.Holds.setHeader (hh : x.Holds next vals) {n : Nat} (hn : n ≤ vals.length)
    (next' : Option Handle) :
    (x.put 0 (Header.mk next' n).toSlot.bytes).Holds next' (vals.take n) := by
  have h0 := hh.hasSlot (Nat.zero_le _)
  have hw := Slot.length_bytes (Header.mk next' n).toSlot
  refine ⟨?_, hh.blank, ?_, ?_⟩
  · rw [length_put h0 hw]
    exact hh.fits
  · rw [slot_put_self h0 hw, List.length_take, Nat.min_eq_left hn]
  · intro i o ho
    rw [slot_put_ne h0 hw (by omega)]
    rw [List.getElem?_take] at ho
    split at ho
    · exact hh.value i o ho
    · cases ho

/-- A value written in the slot after the last, and counted. -/
theorem Cell.Holds.push (hh : x.Holds next vals) (hlt : vals.length < segmentSize) (o : Object) :
    ((x.put (1 + vals.length) o.encode).put 0
      (Header.mk next' (vals.length + 1)).toSlot.bytes).Holds next' (vals ++ [o]) := by
  have hn := hh.hasSlot (i := 1 + vals.length) (by omega)
  have ho := Object.length_encode o
  have h0 := (hh.hasSlot (Nat.zero_le _)).put hn ho
  have hw := Slot.length_bytes (Header.mk next' (vals.length + 1)).toSlot
  refine ⟨?_, hh.blank, ?_, ?_⟩
  · rw [length_put h0 hw, length_put hn ho]
    exact hh.fits
  · rw [slot_put_self h0 hw, List.length_append, List.length_singleton]
  · intro i p hp
    rw [slot_put_ne h0 hw (by omega)]
    rcases Nat.lt_trichotomy i vals.length with hi | rfl | hi
    · rw [slot_put_ne hn ho (by omega)]
      rw [List.getElem?_append_left hi] at hp
      exact hh.value i p hp
    · rw [slot_put_self hn ho]
      rw [List.getElem?_concat_length] at hp
      cases hp
      rfl
    · rw [List.getElem?_eq_none (by rw [List.length_append, List.length_singleton]; omega)] at hp
      cases hp

theorem Cell.Holds.set (hh : x.Holds next vals) (hle : vals.length ≤ segmentSize)
    (hi : i < vals.length) (o : Object) :
    (x.put (1 + i) o.encode).Holds next (vals.set i o) := by
  have hn := hh.hasSlot (i := 1 + i) (by omega)
  have ho := Object.length_encode o
  refine ⟨?_, hh.blank, ?_, ?_⟩
  · rw [length_put hn ho]
    exact hh.fits
  · rw [slot_put_ne hn ho (by omega), List.length_set]
    exact hh.head
  · intro j p hp
    rcases eq_or_ne j i with rfl | hji
    · rw [slot_put_self hn ho]
      rw [List.getElem?_set_self hi] at hp
      cases hp
      rfl
    · rw [slot_put_ne hn ho (by omega)]
      rw [List.getElem?_set_ne (Ne.symm hji)] at hp
      exact hh.value j p hp

/-- A segment that was just taken into use holds nothing. -/
theorem Cell.Holds.nil (hf : segmentBytes ≤ x.bytes.length) (hm : x.mark = .blank) :
    (x.put 0 (Header.mk none 0).toSlot.bytes).Holds none [] := by
  have h0 := hasSlot_of_fits hf (Nat.zero_le _)
  have hw := Slot.length_bytes (Header.mk none 0).toSlot
  refine ⟨?_, hm, slot_put_self h0 hw, fun i o ho => by cases ho⟩
  rw [length_put h0 hw]
  exact hf

/-! ## Blocks of changed values -/

theorem block_append_ne (vals : List Object) (o : Object) (hk : k ≠ vals.length / segmentSize) :
    block (vals ++ [o]) k = block vals k := by
  refine List.ext_getElem? fun i => ?_
  rw [getElem?_block, getElem?_block]
  split
  · next hi =>
    have hne : segmentSize * k + i ≠ vals.length := by
      simp only [segmentSize] at *
      omega
    rcases Nat.lt_or_gt_of_ne hne with hlt | hgt
    · rw [List.getElem?_append_left hlt]
    · rw [List.getElem?_eq_none (by rw [List.length_append, List.length_singleton]; omega),
        List.getElem?_eq_none (by omega)]
  · rfl

theorem block_append_self (vals : List Object) (o : Object) :
    block (vals ++ [o]) (vals.length / segmentSize) =
      block vals (vals.length / segmentSize) ++ [o] := by
  have h1 : segmentSize * (vals.length / segmentSize) ≤ vals.length := Nat.mul_div_le ..
  have h2 : vals.length - segmentSize * (vals.length / segmentSize) < segmentSize := by
    simp only [segmentSize]
    omega
  rw [block, block, List.drop_append_of_le_length h1, List.take_of_length_le, List.take_of_length_le]
  · rw [List.length_drop]
    omega
  · rw [List.length_append, List.length_drop, List.length_singleton]
    omega

theorem block_eq_nil (hk : vals.length ≤ segmentSize * k) : block vals k = [] := by
  rw [block, List.drop_eq_nil_of_le hk, List.take_nil]

theorem block_set_ne (vals : List Object) (o : Object) (hk : k ≠ i / segmentSize) :
    block (vals.set i o) k = block vals k := by
  refine List.ext_getElem? fun j => ?_
  rw [getElem?_block, getElem?_block]
  split
  · rw [List.getElem?_set_ne]
    simp only [segmentSize] at *
    omega
  · rfl

theorem block_set_self (vals : List Object) (i : Nat) (o : Object) :
    block (vals.set i o) (i / segmentSize) =
      (block vals (i / segmentSize)).set (i % segmentSize) o := by
  refine List.ext_getElem? fun j => ?_
  have hdiv := Nat.div_add_mod i segmentSize
  have hmod := Nat.mod_lt i (y := segmentSize) (by decide)
  rw [getElem?_block, List.getElem?_set, List.getElem?_set, length_block, getElem?_block]
  by_cases hj : i % segmentSize = j
  · subst hj
    rw [if_pos (by omega), if_pos hdiv.symm, if_pos rfl]
    congr 1
    exact propext ⟨fun _ => by omega, fun _ => by omega⟩
  · rw [if_neg hj]
    split
    · rw [if_neg (by omega)]
    · rfl

/-! ## New stacks -/

theorem segmentBytes_le : segmentBytes ≤ longestRegion := by decide

theorem newSegment_spec (hs : a.Sound) :
    (∃ h b, newSegment a = .ok h b ∧ h ≠ 0 ∧ a.cell h = none ∧ Touches {h} a b ∧ b.Laid [h] []) ∨
    ∃ f, newSegment a = .error f a ∧ OutOfStorage a f ∧
      allocate segmentBytes .stack a = .error f a := by
  unfold newSegment
  rcases allocate_spec hs segmentBytes_le .stack with ⟨h, b, hok, hne, hdead, ht, n, hn, hc⟩ | hfail
  · left
    have hfits : segmentBytes ≤ (List.replicate n (0 : UInt8)).length := by
      rw [List.length_replicate]
      exact hn
    obtain ⟨c, hset, hr, hc'⟩ :=
      setHeader_spec ht.sound hc (Cell.hasSlot_of_fits hfits (Nat.zero_le _)) ⟨none, 0⟩
    refine ⟨h, c, ?_, hne, hdead, ht.comp hr.toTouches, by simp, by simpa using Ne.symm hne,
      by simp [segmentSize], ?_⟩
    · rw [EStateM.bind_of_ok hok, EStateM.bind_of_ok hset]
      rfl
    · intro k seg hk
      obtain ⟨rfl, rfl⟩ : k = 0 ∧ seg = h := by
        cases k with
        | zero => simpa using hk.symm
        | succ k => simp at hk
      refine ⟨_, hc', ?_⟩
      rw [block_eq_nil (Nat.zero_le _)]
      exact Cell.Holds.nil hfits rfl
  · right
    obtain ⟨f, hf, hv⟩ := hfail
    exact ⟨f, EStateM.bind_of_error hf, hv, hf⟩

theorem newStack_spec (hs : a.Sound) :
    (∃ h b, Stack.new a = .ok ⟨h⟩ b ∧ h ≠ 0 ∧ a.cell h = none ∧ Touches {h} a b ∧ b.Laid [h] []) ∨
    ∃ f, Stack.new a = .error f a ∧ OutOfStorage a f := by
  unfold Stack.new
  rcases newSegment_spec hs with ⟨h, b, hok, hne, hdead, ht, hl⟩ | ⟨f, hf, hv, -⟩
  · exact .inl ⟨h, b, EStateM.bind_of_ok hok, hne, hdead, ht, hl⟩
  · exact .inr ⟨f, EStateM.bind_of_error hf, hv⟩

/-! ## Taking and replacing values -/

namespace Laid

variable {s : Stack} {op : String}

/-- The segment and the header that hold the last value. -/
theorem topSegment_eq (hs : a.Sound) (hl : a.Laid segs vals) (hd : segs.head? = some s.handle)
    (hv : vals ≠ []) :
    ∃ seg, segs[(vals.length - 1) / segmentSize]? = some seg ∧ s.topSegment a =
      .ok (seg, ⟨segs[(vals.length - 1) / segmentSize + 1]?,
        (vals.length - 1) % segmentSize + 1⟩) := by
  have hpos := List.length_pos_of_ne_nil hv
  obtain ⟨last, hlast, hwalk⟩ := hl.walk_eq hs hd
  unfold Stack.topSegment
  rw [bind_eq_of_ok hwalk]
  simp only
  by_cases hz : vals.length % segmentSize = 0
  · -- the walk came to an empty segment, and the one before it is full
    have hq : vals.length / segmentSize = (vals.length - 1) / segmentSize + 1 := by
      simp only [segmentSize] at *
      omega
    have hlt := hl.current_lt
    have hseg : segs[(vals.length - 1) / segmentSize]? =
        some segs[(vals.length - 1) / segmentSize] := List.getElem?_eq_getElem (by omega)
    refine ⟨_, hseg, ?_⟩
    have hfull : (segs.take (vals.length / segmentSize)).getLast? =
        some segs[(vals.length - 1) / segmentSize] := by
      rw [hq, List.getLast?_take, if_neg (Nat.succ_ne_zero _), Nat.add_sub_cancel, hseg,
        Option.some_or]
    have htop : (block vals ((vals.length - 1) / segmentSize)).length =
        (vals.length - 1) % segmentSize + 1 := by
      rw [length_block]
      simp only [segmentSize] at *
      omega
    rw [if_pos hz, hfull]
    simp only
    rw [bind_eq_of_ok (hl.header_eq hs hseg), htop]
    rfl
  · rw [if_neg hz]
    have hq : vals.length / segmentSize = (vals.length - 1) / segmentSize := by
      simp only [segmentSize] at *
      omega
    have hr : vals.length % segmentSize = (vals.length - 1) % segmentSize + 1 := by
      simp only [segmentSize] at *
      omega
    rw [hq] at hlast ⊢
    rw [hr]
    exact ⟨last, hlast, rfl⟩

theorem pop_nil (hs : a.Sound) (hl : a.Laid segs []) (hd : segs.head? = some s.handle) :
    s.pop a = .error (.stackEmpty "pop") a := by
  obtain ⟨last, -, hwalk⟩ := hl.walk_eq hs hd
  have htop : s.topSegment a = .error (.stackEmpty "pop") := by
    unfold Stack.topSegment
    rw [bind_eq_of_ok hwalk]
    rfl
  unfold Stack.pop
  exact EStateM.bind_of_error (ArenaM.reading_of_error htop)

theorem pop_spec (hs : a.Sound) (hl : a.Laid segs (vals ++ [o]))
    (hd : segs.head? = some s.handle) :
    ∃ b, s.pop a = .ok o b ∧ Rewrites {k | k ∈ segs} a b ∧ b.Laid segs vals := by
  have hne : vals ++ [o] ≠ [] := by simp
  have hlen : (vals ++ [o]).length - 1 = vals.length := by simp
  obtain ⟨seg, hseg, htop⟩ := hl.topSegment_eq hs hd hne
  rw [hlen] at hseg htop
  obtain ⟨x, hx, hh⟩ := hl.segment _ seg hseg
  obtain ⟨b, hset, hr, hb⟩ := setHeader_spec hs hx (hh.hasSlot (Nat.zero_le _))
    ⟨segs[vals.length / segmentSize + 1]?, vals.length % segmentSize⟩
  have hblock := block_append_self vals o
  have hlast : (block vals (vals.length / segmentSize)).length = vals.length % segmentSize := by
    rw [length_block]
    simp only [segmentSize]
    omega
  have hcut : (block (vals ++ [o]) (vals.length / segmentSize)).take (vals.length % segmentSize) =
      block vals (vals.length / segmentSize) := by
    rw [hblock, ← hlast, List.take_left]
  have hle : vals.length % segmentSize ≤
      (block (vals ++ [o]) (vals.length / segmentSize)).length := by
    rw [hblock, List.length_append, hlast]
    omega
  have hread : b.readSlot seg (1 + vals.length % segmentSize) = .ok o := by
    have hvalue : (block (vals ++ [o]) (vals.length / segmentSize))[vals.length % segmentSize]? =
        some o := by
      rw [hblock, ← hlast, List.getElem?_concat_length]
    have hmod := Nat.mod_lt vals.length (y := segmentSize) (by decide)
    have hslot := hh.hasSlot (i := 1 + vals.length % segmentSize) (by omega)
    refine readSlot_of_slot hr.sound hb
      (hslot.put (hh.hasSlot (Nat.zero_le _)) (Slot.length_bytes _)) ?_
    rw [Cell.slot_put_ne (hh.hasSlot (Nat.zero_le _)) (Slot.length_bytes _) (by omega)]
    exact hh.value _ o hvalue
  refine ⟨b, ?_, hr.mono fun k hk => hk ▸ List.mem_of_getElem? hseg, hl.nodup, hl.zero, ?_, ?_⟩
  · unfold Stack.pop
    rw [ArenaM.reading_bind htop]
    simp only [Nat.add_sub_cancel]
    rw [EStateM.bind_of_ok hset, Nat.add_comm]
    exact ArenaM.reading_of_ok hread
  · have := hl.room
    rw [List.length_append, List.length_singleton] at this
    omega
  · intro k seg' hk
    rcases eq_or_ne k (vals.length / segmentSize) with rfl | hkq
    · rw [hseg] at hk
      cases hk
      have := hh.setHeader hle segs[vals.length / segmentSize + 1]?
      rw [hcut] at this
      exact ⟨_, hb, this⟩
    · have hne' : seg' ≠ seg := by
        rintro rfl
        exact hkq ((List.getElem?_inj (List.getElem?_eq_some_iff.mp hk).1 hl.nodup).mp
          (hk.trans hseg.symm))
      rw [hr.cell seg' hne', ← block_append_ne vals o hkq]
      exact hl.segment k seg' hk

theorem setBottom_spec (hs : a.Sound) (hl : a.Laid segs vals) (hd : segs.head? = some s.handle)
    (hi : i < vals.length) (o : Object) :
    ∃ b, s.setBottom i o a = .ok () b ∧ Rewrites {k | k ∈ segs} a b ∧
      b.Laid segs (vals.set i o) := by
  obtain ⟨seg, hseg, hplace⟩ := hl.place_eq hs hd hi "tob"
  obtain ⟨x, hx, hh⟩ := hl.segment _ seg hseg
  have hlt : i % segmentSize < (block vals (i / segmentSize)).length := by
    rw [length_block]
    simp only [segmentSize]
    omega
  have hle : (block vals (i / segmentSize)).length ≤ segmentSize := by
    rw [length_block]
    omega
  obtain ⟨b, hw, hr, hb⟩ := writeSlot_spec hs hx (hh.hasSlot (i := 1 + i % segmentSize) (by omega)) o
  refine ⟨b, ?_, hr.mono fun k hk => hk ▸ List.mem_of_getElem? hseg, hl.nodup, hl.zero, ?_, ?_⟩
  · unfold Stack.setBottom
    rw [ArenaM.reading_bind hplace]
    exact hw
  · rw [List.length_set]
    exact hl.room
  · intro k seg' hk
    rcases eq_or_ne k (i / segmentSize) with rfl | hki
    · rw [hseg] at hk
      cases hk
      refine ⟨_, hb, ?_⟩
      rw [block_set_self]
      exact hh.set hle hlt o
    · have hne' : seg' ≠ seg := by
        rintro rfl
        exact hki ((List.getElem?_inj (List.getElem?_eq_some_iff.mp hk).1 hl.nodup).mp
          (hk.trans hseg.symm))
      rw [hr.cell seg' hne', block_set_ne vals o hki]
      exact hl.segment k seg' hk

theorem setBottom_error (hs : a.Sound) (hl : a.Laid segs vals) (hd : segs.head? = some s.handle)
    (hi : vals.length ≤ i) (o : Object) : s.setBottom i o a = .error (.stackEmpty "tob") a := by
  unfold Stack.setBottom
  exact EStateM.bind_of_error (ArenaM.reading_of_error (hl.place_error hs hd hi))

theorem setTop_spec (hs : a.Sound) (hl : a.Laid segs vals) (hd : segs.head? = some s.handle)
    (hi : i < vals.length) (o : Object) :
    ∃ b, s.setTop i o a = .ok () b ∧ Rewrites {k | k ∈ segs} a b ∧
      b.Laid segs (vals.set (vals.length - 1 - i) o) := by
  obtain ⟨b, hset, hr, hlb⟩ :=
    hl.setBottom_spec hs hd (i := vals.length - 1 - i) (by omega) o
  refine ⟨b, ?_, hr, hlb⟩
  unfold Stack.setTop
  rw [ArenaM.reading_bind (hl.indexFromTop_eq hs hd hi)]
  exact hset

theorem setTop_error (hs : a.Sound) (hl : a.Laid segs vals) (hd : segs.head? = some s.handle)
    (hi : vals.length ≤ i) (o : Object) : s.setTop i o a = .error (.stackEmpty "pot") a := by
  unfold Stack.setTop
  exact EStateM.bind_of_error (ArenaM.reading_of_error (hl.indexFromTop_error hs hd hi))

end Laid

/-! ## Giving a stack back -/

theorem forM_free_spec : ∀ (l : List Handle) {a : Arena}, a.Sound → l.Nodup → (0 : Handle) ∉ l →
    (∀ k ∈ l, a.Live k) →
    ∃ b, l.forM Arena.free a = .ok () b ∧ Rewrites {k | k ∈ l} a b ∧ ∀ k ∈ l, b.cell k = none
  | [], a, hs, _, _, _ => ⟨a, rfl, .refl hs, fun _ hk => by cases hk⟩
  | h :: l, a, hs, hnodup, hzero, hlive => by
    obtain ⟨hh, hl⟩ := List.nodup_cons.mp hnodup
    rw [List.mem_cons, not_or] at hzero
    obtain ⟨x, hx⟩ := live_iff_cell.mp (hlive h List.mem_cons_self)
    obtain ⟨b, hfree, hr, hb⟩ := free_spec hs (Ne.symm hzero.1) hx
    have hlive' : ∀ k ∈ l, b.Live k := fun k hk => by
      have hne : k ≠ h := fun heq => hh (heq ▸ hk)
      obtain ⟨y, hy⟩ := live_iff_cell.mp (hlive k (List.mem_cons_of_mem _ hk))
      exact live_iff_cell.mpr ⟨y, by rw [hr.cell k hne, hy]⟩
    obtain ⟨c, hrest, hrc, hc⟩ := forM_free_spec l hr.sound hl hzero.2 hlive'
    refine ⟨c, ?_, (hr.mono ?_).comp (hrc.mono ?_), ?_⟩
    · change (Arena.free h >>= fun _ => l.forM Arena.free) a = _
      rw [EStateM.bind_of_ok hfree, hrest]
    · rintro k rfl
      exact List.mem_cons_self
    · intro k hk
      exact List.mem_cons_of_mem _ hk
    · intro k hk
      rcases List.mem_cons.mp hk with rfl | hk
      · rw [hrc.cell k hh, hb]
      · exact hc k hk

theorem Laid.free_spec {s : Stack} (hs : a.Sound) (hl : a.Laid segs vals)
    (hd : segs.head? = some s.handle) :
    ∃ b, s.free a = .ok () b ∧ Rewrites {k | k ∈ segs} a b ∧ ∀ k ∈ segs, b.cell k = none := by
  obtain ⟨b, hfree, hr, hdead⟩ := forM_free_spec segs.reverse hs (by simpa using hl.nodup)
    (by simpa using hl.zero) fun k hk => hl.live (by simpa using hk)
  refine ⟨b, ?_, hr.mono fun k hk => by simpa using hk, fun k hk => hdead k (by simpa using hk)⟩
  unfold Stack.free
  rw [ArenaM.reading_bind (hl.chain_eq hs hd)]
  exact hfree

end Arena

end BankedMemory
