import BankedMemory.Proofs.Stack.Effects

/-!
# Push

A push writes into the segment the walk comes to. If that fills the segment, the next one is made
ready first: the one linked already, which is empty, or a new one. `Pushed` lists what can come of
it, and `Laid.push_spec` says that nothing else can.
-/

namespace BankedMemory

namespace Arena

variable {a b : Arena} {h seg : Handle} {x : Cell} {o : Object} {segs : List Handle}
  {vals : List Object} {next next' : Option Handle} {k : Nat}

/-- What a push comes to: a value within the segments there are, a value that fills the last of
them and links a new one, or no storage for that one. -/
inductive Pushed (s : Stack) (o : Object) (a : Arena) (segs : List Handle) (vals : List Object) :
    Prop where
  | within (b : Arena) (run : s.push o a = .ok () b) (change : Rewrites {k | k ∈ segs} a b)
      (laid : b.Laid segs (vals ++ [o]))
  | linked (new : Handle) (b : Arena) (run : s.push o a = .ok () b)
      (filled : vals.length + 1 = segmentSize * segs.length) (fresh : a.cell new = none)
      (change : Touches {k | k ∈ segs ∨ k = new} a b) (laid : b.Laid (segs ++ [new]) (vals ++ [o]))
  | full (f : Fault) (run : s.push o a = .error f a) (cause : OutOfStorage a f)
      (filling : vals.length % segmentSize + 1 = segmentSize)
      (last : segs[vals.length / segmentSize + 1]? = none)
      (storage : allocate segmentBytes .stack a = .error f a)

namespace Laid

variable {c : Arena} {s : Stack} {ext : List Handle}

/-- Writing a value into the current segment and counting it. -/
theorem fill (hs : b.Sound) (hl : b.Laid segs vals)
    (hseg : segs[vals.length / segmentSize]? = some seg) (next : Option Handle) (o : Object) :
    ∃ c, (do
        writeSlot seg (1 + vals.length % segmentSize) o
        Arena.setHeader seg ⟨next, vals.length % segmentSize + 1⟩) b = .ok () c ∧
      Rewrites {seg} b c ∧ ∃ x, c.cell seg = some x ∧
        x.Holds next (block (vals ++ [o]) (vals.length / segmentSize)) := by
  obtain ⟨x, hx, hh⟩ := hl.segment _ seg hseg
  have hlen : (block vals (vals.length / segmentSize)).length = vals.length % segmentSize := by
    rw [length_block]
    simp only [segmentSize]
    omega
  have hlt : vals.length % segmentSize < segmentSize := Nat.mod_lt _ (by decide)
  have hn := hh.hasSlot (i := 1 + vals.length % segmentSize) (by omega)
  have ho := Object.length_encode o
  obtain ⟨c, hw, hr, hc⟩ := writeSlot_spec hs hx hn o
  obtain ⟨d, hw', hr', hd⟩ := setHeader_spec hr.sound hc ((hh.hasSlot (Nat.zero_le _)).put hn ho)
    ⟨next, vals.length % segmentSize + 1⟩
  refine ⟨d, ?_, hr.comp hr', _, hd, ?_⟩
  · rw [EStateM.bind_of_ok hw, hw']
  · rw [block_append_self, ← hlen]
    exact hh.push (by rw [hlen]; exact hlt) o

/-- The stack after its current segment was filled in; `ext` is a segment linked behind. -/
theorem append_value (hl : b.Laid segs vals)
    (hext : ext = [] ∨ vals.length + 1 = segmentSize * segs.length ∧
      ∃ new, ext = [new] ∧ new ∉ segs ∧ b.Laid [new] [])
    (hroom : vals.length + 1 < segmentSize * (segs ++ ext).length)
    (hseg : segs[vals.length / segmentSize]? = some seg) (hr : Rewrites {seg} b c)
    (hx : c.cell seg = some x)
    (hh : x.Holds (segs ++ ext)[vals.length / segmentSize + 1]?
      (block (vals ++ [o]) (vals.length / segmentSize))) :
    c.Laid (segs ++ ext) (vals ++ [o]) := by
  have hmem : seg ∈ segs := List.mem_of_getElem? hseg
  refine ⟨?_, ?_, by simpa using hroom, ?_⟩
  · rcases hext with rfl | ⟨-, new, rfl, hnew, -⟩
    · simpa using hl.nodup
    · refine List.nodup_append.mpr ⟨hl.nodup, by simp, fun k hk j hj heq => ?_⟩
      rw [List.mem_singleton] at hj
      subst hj heq
      exact hnew hk
  · rcases hext with rfl | ⟨-, new, rfl, -, hlnew⟩
    · simpa using hl.zero
    · simpa [hl.zero] using hlnew.zero
  · intro k seg' hk
    rcases Nat.lt_or_ge k segs.length with hlt | hge
    · rw [List.getElem?_append_left hlt] at hk
      rcases eq_or_ne k (vals.length / segmentSize) with rfl | hkq
      · rw [hseg] at hk
        cases hk
        exact ⟨x, hx, hh⟩
      · have hne : seg' ≠ seg := by
          rintro rfl
          have hlt' := (List.getElem?_eq_some_iff.mp hseg).1
          exact hkq ((List.getElem?_inj hlt hl.nodup).mp (hk.trans hseg.symm))
        obtain ⟨y, hy, hhy⟩ := hl.segment k seg' hk
        refine ⟨y, by rw [hr.cell seg' hne, hy], ?_⟩
        rw [block_append_ne vals o hkq]
        have hnext : (segs ++ ext)[k + 1]? = segs[k + 1]? := by
          rcases Nat.lt_or_ge (k + 1) segs.length with hlt' | hge'
          · exact List.getElem?_append_left hlt'
          · rcases hext with rfl | ⟨hfull, -⟩
            · rw [List.append_nil]
            · simp only [segmentSize] at *
              omega
        rw [hnext]
        exact hhy
    · rcases hext with rfl | ⟨hfull, new, rfl, hnew, hlnew⟩
      · rw [List.append_nil, List.getElem?_eq_none hge] at hk
        cases hk
      · rw [List.getElem?_append_right hge] at hk
        have hk0 : k = segs.length := by
          have := (List.getElem?_eq_some_iff.mp hk).1
          simp only [List.length_singleton] at this
          omega
        subst hk0
        rw [Nat.sub_self] at hk
        obtain ⟨y, hy, hhy⟩ := hlnew.segment 0 seg' hk
        have hne : seg' ≠ seg := by
          rintro rfl
          cases hk
          exact hnew hmem
        refine ⟨y, by rw [hr.cell seg' hne, hy], ?_⟩
        rw [block_eq_nil (by rw [List.length_append, List.length_singleton]; omega),
          List.getElem?_eq_none (by simp)]
        rw [block_eq_nil (Nat.zero_le _)] at hhy
        exact hhy

/-- The segment linked already is empty, and stays so. -/
theorem nextSegment_linked (hs : a.Sound) (hl : a.Laid segs vals)
    (hnext : segs[vals.length / segmentSize + 1]? = some h) (top : Nat) :
    ∃ b, Stack.nextSegment ⟨some h, top⟩ a = .ok h b ∧ Rewrites {h} a b ∧ b.Laid segs vals := by
  obtain ⟨x, hx, hh⟩ := hl.segment _ h hnext
  have hnil : block vals (vals.length / segmentSize + 1) = [] := by
    refine block_eq_nil ?_
    simp only [segmentSize] at *
    omega
  have hhead := hl.header_eq hs hnext
  rw [hnil] at hhead hh
  obtain ⟨b, hset, hr, hb⟩ := setHeader_spec hs hx (hh.hasSlot (Nat.zero_le _))
    ⟨segs[vals.length / segmentSize + 1 + 1]?, 0⟩
  refine ⟨b, ?_, hr, hl.nodup, hl.zero, hl.room, fun k seg hk => ?_⟩
  · unfold Stack.nextSegment
    simp only
    rw [ArenaM.reading_bind hhead]
    simp only
    rw [EStateM.bind_of_ok hset]
    rfl
  · rcases eq_or_ne seg h with rfl | hne
    · have hk' := (List.getElem?_inj (List.getElem?_eq_some_iff.mp hk).1 hl.nodup).mp
        (hk.trans hnext.symm)
      subst hk'
      refine ⟨_, hb, ?_⟩
      rw [hnil]
      exact hh.setHeader (n := 0) (Nat.le_refl _) _
    · rw [hr.cell seg hne]
      exact hl.segment k seg hk

/-- A push is done once the next segment is there, if one is needed, and the value is written. -/
theorem push_eq (hwalk : a.walk s.handle = .ok ⟨segs, seg, ⟨next, k⟩⟩)
    (hnext : (if k + 1 = segmentSize then some <$> Stack.nextSegment ⟨next, k⟩ else pure next) a =
      .ok next' b)
    (hfill : (do
      writeSlot seg (1 + k) o
      Arena.setHeader seg ⟨next', k + 1⟩) b = .ok () c) : s.push o a = .ok () c := by
  unfold Stack.push
  rw [ArenaM.reading_bind hwalk]
  simp only
  split at hnext
  · next hfilling =>
    rw [if_pos hfilling]
    cases hstep : Stack.nextSegment ⟨next, k⟩ a with
    | ok new b' =>
      rw [EStateM.map_of_ok hstep] at hnext
      cases hnext
      rw [EStateM.bind_of_ok hstep]
      exact hfill
    | error f b' =>
      rw [EStateM.map_of_error hstep] at hnext
      cases hnext
  · next hfilling =>
    rw [if_neg hfilling]
    cases hnext
    exact hfill

theorem push_spec (hs : a.Sound) (hl : a.Laid segs vals) (hd : segs.head? = some s.handle)
    (o : Object) : Pushed s o a segs vals := by
  obtain ⟨seg, hseg, hwalk⟩ := hl.walk_eq hs hd
  have hmem : seg ∈ segs := List.mem_of_getElem? hseg
  have hin : ∀ k ∈ ({seg} : Set Handle), k ∈ {k | k ∈ segs} := fun k hk => hk ▸ hmem
  have hroom := hl.room
  have hlt := hl.current_lt
  by_cases hfilling : vals.length % segmentSize + 1 = segmentSize
  · cases hnext : segs[vals.length / segmentSize + 1]? with
    | some next =>
      obtain ⟨b, hok, hr, hlb⟩ := hl.nextSegment_linked hs hnext (vals.length % segmentSize)
      obtain ⟨c, hfill, hrc, y, hy, hhy⟩ := hlb.fill hr.sound hseg (some next) o
      have hlc : c.Laid (segs ++ []) (vals ++ [o]) := by
        refine hlb.append_value (.inl rfl) ?_ hseg hrc hy ?_
        · have := (List.getElem?_eq_some_iff.mp hnext).1
          simp only [segmentSize, List.append_nil] at *
          omega
        · rw [List.append_nil, hnext]
          exact hhy
      rw [List.append_nil] at hlc
      refine .within c (push_eq hwalk ?_ hfill) ((hr.mono ?_).comp (hrc.mono hin)) hlc
      · rw [if_pos hfilling, hnext]
        exact EStateM.map_of_ok hok
      · rintro k rfl
        exact List.mem_of_getElem? hnext
    | none =>
      have hlast : vals.length / segmentSize + 1 = segs.length := by
        have := List.getElem?_eq_none_iff.mp hnext
        omega
      have hfilled : vals.length + 1 = segmentSize * segs.length := by
        simp only [segmentSize] at *
        omega
      rcases newSegment_spec hs with ⟨new, b, hok, -, hdead, ht, hlnew⟩ | ⟨f, hf, hv, hstorage⟩
      · have hfresh : new ∉ segs := fun hk => cell_eq_none_iff.mp hdead (hl.live hk)
        have hlb : b.Laid segs vals := hl.of_touches ht fun k hk heq => hfresh (heq ▸ hk)
        obtain ⟨c, hfill, hrc, y, hy, hhy⟩ := hlb.fill ht.sound hseg (some new) o
        have hlc : c.Laid (segs ++ [new]) (vals ++ [o]) := by
          refine hlb.append_value (.inr ⟨hfilled, new, rfl, hfresh, hlnew⟩) ?_ hseg hrc hy ?_
          · rw [List.length_append, List.length_singleton]
            simp only [segmentSize] at *
            omega
          · rw [hlast, List.getElem?_concat_length]
            exact hhy
        refine .linked new c (push_eq hwalk ?_ hfill) hfilled hdead
          ((ht.mono ?_).comp (hrc.toTouches.mono ?_)) hlc
        · rw [if_pos hfilling, hnext]
          exact EStateM.map_of_ok hok
        · rintro k rfl
          exact Or.inr rfl
        · rintro k rfl
          exact Or.inl hmem
      · refine .full f ?_ hv hfilling hnext hstorage
        unfold Stack.push
        rw [ArenaM.reading_bind hwalk]
        simp only
        rw [if_pos hfilling, hnext]
        exact EStateM.bind_of_error hf
  · obtain ⟨c, hfill, hrc, y, hy, hhy⟩ :=
      hl.fill hs hseg segs[vals.length / segmentSize + 1]? o
    have hlc : c.Laid (segs ++ []) (vals ++ [o]) := by
      refine hl.append_value (.inl rfl) ?_ hseg hrc hy ?_
      · simp only [segmentSize, List.append_nil] at *
        omega
      · rw [List.append_nil]
        exact hhy
    rw [List.append_nil] at hlc
    refine .within c (push_eq hwalk ?_ hfill) (hrc.mono hin) hlc
    rw [if_neg hfilling]
    rfl

/-- A value that does not fill its segment needs no storage. -/
theorem push_within (hs : a.Sound) (hl : a.Laid segs vals) (hd : segs.head? = some s.handle)
    (o : Object) (hroom : vals.length % segmentSize + 1 ≠ segmentSize) :
    ∃ b, s.push o a = .ok () b ∧ Rewrites {k | k ∈ segs} a b ∧ b.Laid segs (vals ++ [o]) := by
  cases hl.push_spec hs hd o with
  | within b run change laid => exact ⟨b, run, change, laid⟩
  | linked new b run filled fresh change laid =>
    refine absurd ?_ hroom
    simp only [segmentSize] at *
    omega
  | full f run cause filling last storage => exact absurd filling hroom

end Laid

end Arena

end BankedMemory
