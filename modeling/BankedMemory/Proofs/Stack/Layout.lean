import BankedMemory.Proofs.Arena.Supply
import BankedMemory.Stack.Listing

/-!
# How a stack lies in an arena

`Laid a segs vals`: the segments `segs` hold the values `vals`, twenty to a segment, each segment
full before the next is begun. Every way of walking along a stack is computed from it: the walk to
the first segment that is not full, the chain, the place of a value, the values in order.
-/

namespace BankedMemory

namespace Header

/-- A header is read back as it was written; the next handle is none or not 0. -/
theorem ofSlot_toSlot {h : Header} (hn : h.next ≠ some 0) (ht : h.top < 0x100000000) :
    ofSlot h.toSlot = h := by
  obtain ⟨next, top⟩ := h
  have htop : (UInt32.ofNat top).toNat = top := by
    rw [UInt32.toNat_ofNat']
    exact Nat.mod_eq_of_lt ht
  cases next with
  | none => simp [ofSlot, toSlot, htop]
  | some n =>
    have hn0 : n ≠ 0 := fun h0 => hn (by rw [h0])
    simp [ofSlot, toSlot, htop, hn0]

end Header

namespace Arena

variable {F : Set Handle} {a b : Arena} {h : Handle} {x : Cell} {o : Object} {i j : Nat}
  {src : List UInt8}

/-! ## Slots of a cell -/

/-- The cell with slot `i` written over. -/
def Cell.put (x : Cell) (i : Nat) (src : List UInt8) : Cell :=
  { x with bytes := patch x.bytes (i * Slot.width) src }

theorem Cell.length_put (hi : x.HasSlot i) (hw : src.length = Slot.width) :
    (x.put i src).bytes.length = x.bytes.length :=
  length_patch (by rw [hw]; exact hi)

theorem Cell.HasSlot.put (hj : x.HasSlot j) (hi : x.HasSlot i) (hw : src.length = Slot.width) :
    (x.put i src).HasSlot j := by
  unfold HasSlot
  rw [length_put hi hw]
  exact hj

theorem Cell.slot_put_self (hi : x.HasSlot i) (hw : src.length = Slot.width) :
    (x.put i src).slot i = src :=
  slotAt_patch_self hw (by rw [hw]; exact hi)

theorem Cell.slot_put_ne (hi : x.HasSlot i) (hw : src.length = Slot.width) (hij : j ≠ i) :
    (x.put i src).slot j = x.slot j :=
  slotAt_patch_ne hw (by rw [hw]; exact hi) hij

theorem readSlot_of_slot (hs : a.Sound) (hc : a.cell h = some x) (hi : x.HasSlot i)
    (ho : x.slot i = o.encode) : a.readSlot h i = .ok o := by
  unfold readSlot
  rw [bind_eq_of_ok (hs.read_slot hc hi), ho]
  exact Object.decode_encode o

theorem writeSlot_spec (hs : a.Sound) (hc : a.cell h = some x) (hi : x.HasSlot i) (o : Object) :
    ∃ b, writeSlot h i o a = .ok () b ∧ Rewrites {h} a b ∧ b.cell h = some (x.put i o.encode) := by
  have hw := Object.length_encode o
  have hfit : i * o.encode.length + o.encode.length ≤ x.bytes.length := by
    rw [hw]
    exact hi
  have hwrite := write_spec hs hc hfit
  rwa [hw] at hwrite

theorem setHeader_spec (hs : a.Sound) (hc : a.cell h = some x) (hi : x.HasSlot 0) (hd : Header) :
    ∃ b, setHeader h hd a = .ok () b ∧ Rewrites {h} a b ∧
      b.cell h = some (x.put 0 hd.toSlot.bytes) := by
  have hw := Slot.length_bytes hd.toSlot
  have hfit : 0 * hd.toSlot.bytes.length + hd.toSlot.bytes.length ≤ x.bytes.length := by
    rw [hw]
    exact hi
  have hwrite := write_spec hs hc hfit
  rwa [hw] at hwrite

/-! ## Segments -/

/-- The cell is a segment that leads to `next` and holds `vals`. Segments are never stamped. -/
structure Cell.Holds (x : Cell) (next : Option Handle) (vals : List Object) : Prop where
  fits : segmentBytes ≤ x.bytes.length
  blank : x.mark = .blank
  head : x.slot 0 = (Header.mk next vals.length).toSlot.bytes
  value : ∀ i o, vals[i]? = some o → x.slot (1 + i) = o.encode

theorem Cell.hasSlot_of_fits (hf : segmentBytes ≤ x.bytes.length) (hi : i ≤ segmentSize) :
    x.HasSlot i := by
  unfold HasSlot
  simp only [segmentBytes, segmentSize, Slot.width] at *
  omega

theorem Cell.Holds.hasSlot {next : Option Handle} {vals : List Object} (hh : x.Holds next vals)
    (hi : i ≤ segmentSize) : x.HasSlot i :=
  hasSlot_of_fits hh.fits hi

/-- The values that belong into segment `k`. -/
def block (vals : List Object) (k : Nat) : List Object :=
  (vals.drop (segmentSize * k)).take segmentSize

theorem length_block (vals : List Object) (k : Nat) :
    (block vals k).length = min segmentSize (vals.length - segmentSize * k) := by
  rw [block, List.length_take, List.length_drop]

theorem getElem?_block (vals : List Object) (k i : Nat) :
    (block vals k)[i]? = if i < segmentSize then vals[segmentSize * k + i]? else none := by
  rw [block, List.getElem?_take, List.getElem?_drop]

structure Laid (a : Arena) (segs : List Handle) (vals : List Object) : Prop where
  nodup : segs.Nodup
  zero : (0 : Handle) ∉ segs
  room : vals.length < segmentSize * segs.length
  segment : ∀ (k : Nat) (seg : Handle), segs[k]? = some seg →
    ∃ x, a.cell seg = some x ∧ x.Holds segs[k + 1]? (block vals k)

namespace Laid

variable {segs : List Handle} {vals : List Object} {k n : Nat} {seg : Handle} {op : String}

theorem live (hl : a.Laid segs vals) (hk : seg ∈ segs) : a.Live seg := by
  obtain ⟨k, hk⟩ := List.getElem?_of_mem hk
  obtain ⟨x, hx, -⟩ := hl.segment k seg hk
  exact live_iff_cell.mpr ⟨x, hx⟩

/-- A stack lies as it did when its segments show the same bytes and marks. -/
theorem frame (hl : a.Laid segs vals) (hc : ∀ seg ∈ segs, b.cell seg = a.cell seg) :
    b.Laid segs vals := by
  refine ⟨hl.nodup, hl.zero, hl.room, fun k seg hk => ?_⟩
  rw [hc seg (List.mem_of_getElem? hk)]
  exact hl.segment k seg hk

theorem of_touches (hl : a.Laid segs vals) (t : Touches F a b) (hF : ∀ seg ∈ segs, seg ∉ F) :
    b.Laid segs vals :=
  hl.frame fun seg hk => t.cell seg (hF seg hk)

/-- Lowering the marks of all rows changes no segment. -/
theorem cell_lowered (hl : a.Laid segs vals) {level : UInt32}
    (hc : ∀ k, b.cell k = (a.cell k).map fun x => { x with mark := lowerMark level x.mark })
    (hk : seg ∈ segs) : b.cell seg = a.cell seg := by
  obtain ⟨n, hn⟩ := List.getElem?_of_mem hk
  obtain ⟨⟨bytes, mark, kind⟩, hx, hholds⟩ := hl.segment n seg hn
  obtain rfl : mark = .blank := hholds.blank
  rw [hc, hx, Option.map_some, lowerMark_blank]

theorem length_le (hl : a.Laid segs vals) : segs.length ≤ a.table.size :=
  length_le_size hl.nodup fun _ hk => hl.live hk

/-- The segment the next push goes to. -/
theorem current_lt (hl : a.Laid segs vals) : vals.length / segmentSize < segs.length := by
  have := hl.room
  simp only [segmentSize] at *
  omega

theorem header_eq (hs : a.Sound) (hl : a.Laid segs vals) (hk : segs[k]? = some seg) :
    a.header seg = .ok ⟨segs[k + 1]?, (block vals k).length⟩ := by
  obtain ⟨x, hx, hh⟩ := hl.segment k seg hk
  have hn : segs[k + 1]? ≠ some 0 := fun h0 => hl.zero (List.mem_of_getElem? h0)
  have htop : (block vals k).length < 0x100000000 := by
    rw [length_block]
    simp only [segmentSize]
    omega
  unfold header
  rw [bind_eq_of_ok (hs.read_slot hx (hh.hasSlot (Nat.zero_le _))), hh.head, Slot.ofBytes?_bytes]
  exact congrArg Except.ok (Header.ofSlot_toSlot (h := ⟨_, _⟩) hn htop)

theorem readSlot_eq (hs : a.Sound) (hl : a.Laid segs vals) (hk : segs[k]? = some seg)
    (ho : (block vals k)[i]? = some o) : a.readSlot seg (1 + i) = .ok o := by
  obtain ⟨x, hx, hh⟩ := hl.segment k seg hk
  have hi : i < (block vals k).length := (List.getElem?_eq_some_iff.mp ho).1
  rw [length_block] at hi
  exact readSlot_of_slot hs hx (hh.hasSlot (by omega)) (hh.value i o ho)

/-! ## Walking -/

theorem walkFrom_eq (hs : a.Sound) (hl : a.Laid segs vals) :
    ∀ (m k : Nat) (seg : Handle) (fuel : Nat), segs[k]? = some seg →
      k + m = vals.length / segmentSize → m < fuel →
      ∃ last, segs[k + m]? = some last ∧ a.walkFrom seg fuel =
        .ok ⟨(segs.drop k).take m, last, ⟨segs[k + m + 1]?, vals.length % segmentSize⟩⟩ := by
  intro m
  induction m with
  | zero =>
    intro k seg fuel hk hq hfuel
    obtain ⟨fuel, rfl⟩ : ∃ n, fuel = n + 1 := ⟨fuel - 1, by omega⟩
    refine ⟨seg, hk, ?_⟩
    have hlen : (block vals k).length = vals.length % segmentSize := by
      rw [length_block]
      simp only [segmentSize] at *
      omega
    have hfull : Header.isFull ⟨segs[k + 1]?, (block vals k).length⟩ = false := by
      rw [hlen]
      have := Nat.mod_lt vals.length (y := segmentSize) (by decide)
      simp only [Header.isFull, beq_eq_false_iff_ne]
      omega
    rw [walkFrom, bind_eq_of_ok (hl.header_eq hs hk)]
    rw [hfull, hlen]
    rfl
  | succ m ih =>
    intro k seg fuel hk hq hfuel
    obtain ⟨fuel, rfl⟩ : ∃ n, fuel = n + 1 := ⟨fuel - 1, by omega⟩
    have hlt := hl.current_lt
    obtain ⟨next, hnext⟩ : ∃ next, segs[k + 1]? = some next :=
      ⟨_, List.getElem?_eq_getElem (by omega)⟩
    obtain ⟨last, hlast, hwalk⟩ := ih (k + 1) next fuel hnext (by omega) (by omega)
    have hfull : Header.isFull ⟨segs[k + 1]?, (block vals k).length⟩ = true := by
      simp only [Header.isFull, beq_iff_eq, length_block]
      simp only [segmentSize] at *
      omega
    refine ⟨last, by rw [← hlast]; congr 1; omega, ?_⟩
    rw [walkFrom, bind_eq_of_ok (hl.header_eq hs hk)]
    rw [hnext] at hfull
    simp only [hnext, hfull, if_true]
    rw [bind_eq_of_ok hwalk]
    have hdrop : segs.drop k = seg :: segs.drop (k + 1) := by
      obtain ⟨hlt', rfl⟩ := List.getElem?_eq_some_iff.mp hk
      exact List.drop_eq_getElem_cons hlt'
    rw [hdrop, List.take_succ_cons, show k + 1 + m + 1 = k + (m + 1) + 1 by omega]
    rfl

/-- The walk comes to the segment the next push goes to. -/
theorem walk_eq (hs : a.Sound) (hl : a.Laid segs vals) (hd : segs.head? = some h) :
    ∃ last, segs[vals.length / segmentSize]? = some last ∧ a.walk h =
      .ok ⟨segs.take (vals.length / segmentSize), last,
        ⟨segs[vals.length / segmentSize + 1]?, vals.length % segmentSize⟩⟩ := by
  have h1 := hl.current_lt
  have h2 := hl.length_le
  have := hl.walkFrom_eq hs (vals.length / segmentSize) 0 h a.chainBound
    (by rw [← List.head?_eq_getElem?, hd]) (by omega) (by unfold chainBound; omega)
  rw [Nat.zero_add, List.drop_zero] at this
  exact this

theorem chainFrom_eq (hs : a.Sound) (hl : a.Laid segs vals) :
    ∀ (n k : Nat) (seg : Handle), segs[k]? = some seg → segs.length < k + n + 1 →
      a.chainFrom seg n = .ok (segs.drop k) := by
  intro n
  induction n with
  | zero =>
    intro k seg hk hn
    have := (List.getElem?_eq_some_iff.mp hk).1
    omega
  | succ n ih =>
    intro k seg hk hn
    have hdrop : segs.drop k = seg :: segs.drop (k + 1) := by
      obtain ⟨hlt', rfl⟩ := List.getElem?_eq_some_iff.mp hk
      exact List.drop_eq_getElem_cons hlt'
    rw [chainFrom, bind_eq_of_ok (hl.header_eq hs hk)]
    cases hnext : segs[k + 1]? with
    | none =>
      rw [hdrop, List.drop_eq_nil_of_le (by simpa using hnext)]
      rfl
    | some next =>
      simp only
      rw [bind_eq_of_ok (ih (k + 1) next hnext (by omega)), hdrop]
      rfl

theorem chain_eq (hs : a.Sound) (hl : a.Laid segs vals) (hd : segs.head? = some h) :
    a.chain h = .ok segs := by
  have := hl.length_le
  rw [chain, hl.chainFrom_eq hs a.chainBound 0 h (by rw [← List.head?_eq_getElem?, hd])
    (by unfold chainBound; omega), List.drop_zero]

theorem segmentAfter_eq (hs : a.Sound) (hl : a.Laid segs vals) :
    ∀ (n k : Nat) (seg last : Handle), segs[k]? = some seg → segs[k + n]? = some last →
      Stack.segmentAfter a seg op n = .ok last := by
  intro n
  induction n with
  | zero =>
    intro k seg last hk hlast
    rw [Nat.add_zero, hk] at hlast
    cases hlast
    rfl
  | succ n ih =>
    intro k seg last hk hlast
    obtain ⟨next, hnext⟩ : ∃ next, segs[k + 1]? = some next := by
      have := (List.getElem?_eq_some_iff.mp hlast).1
      exact ⟨_, List.getElem?_eq_getElem (by omega)⟩
    rw [Stack.segmentAfter, bind_eq_of_ok (hl.header_eq hs hk)]
    simp only [hnext]
    exact ih (k + 1) next last hnext (by rw [← hlast]; congr 1; omega)

/-! ## Counting and indexing -/

variable {s : Stack}

theorem count_eq (hs : a.Sound) (hl : a.Laid segs vals) (hd : segs.head? = some s.handle) :
    s.count a = .ok vals.length := by
  obtain ⟨last, -, hwalk⟩ := hl.walk_eq hs hd
  have := hl.current_lt
  unfold Stack.count
  rw [bind_eq_of_ok hwalk]
  change Except.ok _ = _
  rw [Walk.count, List.length_take, Nat.min_eq_left (by omega), Nat.div_add_mod]

theorem isEmpty_eq (hs : a.Sound) (hl : a.Laid segs vals) (hd : segs.head? = some s.handle) :
    s.isEmpty a = .ok vals.isEmpty := by
  unfold Stack.isEmpty
  rw [bind_eq_of_ok (hl.count_eq hs hd)]
  cases vals <;> rfl

theorem place_eq (hs : a.Sound) (hl : a.Laid segs vals) (hd : segs.head? = some s.handle)
    (hi : i < vals.length) (op : String) :
    ∃ seg, segs[i / segmentSize]? = some seg ∧ s.place a i op = .ok ⟨seg, 1 + i % segmentSize⟩ := by
  have hlt : i / segmentSize < segs.length := by
    have := hl.room
    simp only [segmentSize] at *
    omega
  refine ⟨_, List.getElem?_eq_getElem hlt, ?_⟩
  unfold Stack.place
  rw [bind_eq_of_ok (hl.count_eq hs hd), if_neg (by omega), bind_eq_of_ok
    (hl.segmentAfter_eq hs _ 0 s.handle segs[i / segmentSize]
      (by rw [← List.head?_eq_getElem?, hd]) (by rw [Nat.zero_add, List.getElem?_eq_getElem hlt]))]
  rfl

theorem place_error (hs : a.Sound) (hl : a.Laid segs vals) (hd : segs.head? = some s.handle)
    (hi : vals.length ≤ i) : s.place a i op = .error (.stackEmpty op) := by
  unfold Stack.place
  rw [bind_eq_of_ok (hl.count_eq hs hd), if_pos hi]
  rfl

/-- A value of the stack is in its block. -/
theorem block_at (vals : List Object) (i : Nat) :
    (block vals (i / segmentSize))[i % segmentSize]? = vals[i]? := by
  rw [getElem?_block, if_pos (Nat.mod_lt _ (by decide)), Nat.div_add_mod]

theorem bottom_eq (hs : a.Sound) (hl : a.Laid segs vals) (hd : segs.head? = some s.handle)
    (ho : vals[i]? = some o) : s.bottom i a = .ok o := by
  obtain ⟨seg, hseg, hplace⟩ := hl.place_eq hs hd (List.getElem?_eq_some_iff.mp ho).1 "bot"
  unfold Stack.bottom
  rw [bind_eq_of_ok hplace]
  exact hl.readSlot_eq hs hseg (by rw [block_at, ho])

theorem bottom_error (hs : a.Sound) (hl : a.Laid segs vals) (hd : segs.head? = some s.handle)
    (hi : vals.length ≤ i) : s.bottom i a = .error (.stackEmpty "bot") := by
  unfold Stack.bottom
  rw [bind_eq_of_error (hl.place_error hs hd hi)]

theorem indexFromTop_eq (hs : a.Sound) (hl : a.Laid segs vals) (hd : segs.head? = some s.handle)
    (hi : i < vals.length) : s.indexFromTop a i op = .ok (vals.length - 1 - i) := by
  unfold Stack.indexFromTop
  rw [bind_eq_of_ok (hl.count_eq hs hd), if_neg (by omega)]
  rfl

theorem indexFromTop_error (hs : a.Sound) (hl : a.Laid segs vals)
    (hd : segs.head? = some s.handle) (hi : vals.length ≤ i) :
    s.indexFromTop a i op = .error (.stackEmpty op) := by
  unfold Stack.indexFromTop
  rw [bind_eq_of_ok (hl.count_eq hs hd), if_pos hi]
  rfl

theorem top_eq (hs : a.Sound) (hl : a.Laid segs vals) (hd : segs.head? = some s.handle)
    (ho : vals.reverse[i]? = some o) : s.top i a = .ok o := by
  have hi : i < vals.length := by
    have := (List.getElem?_eq_some_iff.mp ho).1
    rwa [List.length_reverse] at this
  rw [List.getElem?_reverse hi] at ho
  unfold Stack.top
  rw [bind_eq_of_ok (hl.indexFromTop_eq hs hd hi)]
  exact hl.bottom_eq hs hd ho

theorem top_error (hs : a.Sound) (hl : a.Laid segs vals) (hd : segs.head? = some s.handle)
    (hi : vals.length ≤ i) : s.top i a = .error (.stackEmpty "top") := by
  unfold Stack.top
  rw [bind_eq_of_error (hl.indexFromTop_error hs hd hi)]

/-! ## The values in order -/

theorem readSlots_eq (hs : a.Sound) (hl : a.Laid segs vals) (hk : segs[k]? = some seg) :
    ∀ (n i : Nat), i + n = (block vals k).length →
      a.readSlots seg (1 + i) n = .ok ((block vals k).drop i) := by
  intro n
  induction n with
  | zero =>
    intro i hi
    rw [List.drop_eq_nil_of_le (by omega)]
    rfl
  | succ n ih =>
    intro i hi
    have hlt : i < (block vals k).length := by omega
    rw [readSlots, bind_eq_of_ok (hl.readSlot_eq hs hk (List.getElem?_eq_getElem hlt)), Nat.add_assoc,
      bind_eq_of_ok (ih (i + 1) (by omega)), List.drop_eq_getElem_cons hlt]
    rfl

theorem valuesFrom_eq (hs : a.Sound) (hl : a.Laid segs vals) :
    ∀ (m k : Nat) (seg : Handle) (fuel : Nat), segs[k]? = some seg →
      k + m = vals.length / segmentSize → m < fuel →
      a.valuesFrom seg fuel = .ok (vals.drop (segmentSize * k)) := by
  intro m
  induction m with
  | zero =>
    intro k seg fuel hk hq hfuel
    obtain ⟨fuel, rfl⟩ : ∃ n, fuel = n + 1 := ⟨fuel - 1, by omega⟩
    have hlen : (block vals k).length < segmentSize := by
      rw [length_block]
      simp only [segmentSize] at *
      omega
    have hfull : Header.isFull ⟨segs[k + 1]?, (block vals k).length⟩ = false := by
      simp only [Header.isFull, beq_eq_false_iff_ne]
      omega
    rw [valuesFrom, bind_eq_of_ok (hl.header_eq hs hk)]
    have hread := hl.readSlots_eq hs hk _ 0 (Nat.zero_add _)
    rw [bind_eq_of_ok hread, hfull]
    have hblock : block vals k = vals.drop (segmentSize * k) := by
      rw [block, List.take_of_length_le]
      rw [length_block] at hlen
      rw [List.length_drop]
      omega
    rw [List.drop_zero, hblock]
    rfl
  | succ m ih =>
    intro k seg fuel hk hq hfuel
    obtain ⟨fuel, rfl⟩ : ∃ n, fuel = n + 1 := ⟨fuel - 1, by omega⟩
    have hlt := hl.current_lt
    obtain ⟨next, hnext⟩ : ∃ next, segs[k + 1]? = some next :=
      ⟨_, List.getElem?_eq_getElem (by omega)⟩
    have hfull : Header.isFull ⟨segs[k + 1]?, (block vals k).length⟩ = true := by
      simp only [Header.isFull, beq_iff_eq, length_block]
      simp only [segmentSize] at *
      omega
    rw [valuesFrom, bind_eq_of_ok (hl.header_eq hs hk)]
    have hread := hl.readSlots_eq hs hk _ 0 (Nat.zero_add _)
    rw [bind_eq_of_ok hread]
    rw [hnext] at hfull
    simp only [hnext, hfull, if_true]
    rw [bind_eq_of_ok (ih (k + 1) next fuel hnext (by omega) (by omega)), List.drop_zero, block,
      Nat.mul_succ, ← List.drop_drop, List.take_append_drop]
    rfl

/-- Reading a stack off the arena gives its values. -/
theorem toList_eq (hs : a.Sound) (hl : a.Laid segs vals) (hd : segs.head? = some s.handle) :
    s.toList a = .ok vals := by
  have h1 := hl.current_lt
  have h2 := hl.length_le
  have := hl.valuesFrom_eq hs (vals.length / segmentSize) 0 s.handle a.chainBound
    (by rw [← List.head?_eq_getElem?, hd]) (by omega) (by unfold chainBound; omega)
  rw [Stack.toList, this, Nat.mul_zero, List.drop_zero]

end Laid

end Arena

end BankedMemory
