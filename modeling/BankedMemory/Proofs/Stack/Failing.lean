import BankedMemory.Proofs.Object.Storage
import BankedMemory.Proofs.Stack.Effects

/-!
# What a failing access to a stack leaves

A stack is named by any handle, and a client may have written anything over its segments. A failing
`setBottom` or `setTop` leaves the arena as it is, whatever handle it is made with: all its checks
come before its one write. `pop` and `push` write before a check in one case each. `pop` stores the
lower count before it reads the value, which is lost if it spells no object (`TopLost`). `push`
makes the next segment ready before it stores the value, for which the segment may be too small
(`NextLost`). Apart from these two, a failing access changes nothing at all.
-/

namespace BankedMemory

namespace Arena

variable {a b : Arena} {seg : Handle} {hd : Header} {f : Fault} {o : Object} {i n : Nat} {w : Walk}
  {src : List UInt8}

/-! ## Headers that can be read -/

theorem live_of_header (hh : a.header seg = .ok hd) : a.Live seg := by
  obtain ⟨bytes, hread, -⟩ := exists_of_bind_ok hh
  obtain ⟨span, hspan, -⟩ := exists_of_bind_ok hread
  obtain ⟨e, he, -⟩ := exists_of_bind_ok hspan
  exact ⟨e, he⟩

/-- A header that can be read lies within its entity. -/
theorem Sound.hasSlot_of_header (hs : a.Sound) (hh : a.header seg = .ok hd) :
    ∃ x, a.cell seg = some x ∧ x.HasSlot 0 := by
  obtain ⟨x, hx⟩ := live_iff_cell.mp (live_of_header hh)
  refine ⟨x, hx, Classical.byContradiction fun hslot => ?_⟩
  have hread := hs.placed.read_of_cell hx 0 Slot.width
  unfold Cell.HasSlot at hslot
  rw [if_neg hslot] at hread
  obtain ⟨bytes, hok, -⟩ := exists_of_bind_ok hh
  cases hread.symm.trans hok

/-- The count in a header is a word, whatever bytes it is read from. -/
theorem header_top_lt (hh : a.header seg = .ok hd) : hd.top < 0x100000000 := by
  obtain ⟨bytes, -, hh⟩ := exists_of_bind_ok hh
  split at hh
  · cases hh
    exact UInt32.toNat_lt _
  · cases hh

theorem header_next_ne_zero (hh : a.header seg = .ok hd) : hd.next ≠ some 0 := by
  obtain ⟨bytes, -, hh⟩ := exists_of_bind_ok hh
  split at hh
  · next slot _ =>
    cases hh
    unfold Header.ofSlot
    by_cases htag : slot.tag = 0 <;> simp [htag]
  · cases hh

theorem walkFrom_headers (hw : a.walkFrom seg n = .ok w) :
    a.header w.segment = .ok w.header ∧
      ∀ k ∈ w.full, ∃ hd, a.header k = .ok hd ∧ hd.top = segmentSize := by
  induction n generalizing seg w with
  | zero => cases hw
  | succ n ih =>
    obtain ⟨hd, hh, hw⟩ := exists_of_bind_ok hw
    split at hw
    · next hfull =>
      split at hw
      · cases hw
      · obtain ⟨rest, hrest, hw⟩ := exists_of_bind_ok hw
        cases hw
        obtain ⟨hlast, hpassed⟩ := ih hrest
        refine ⟨hlast, fun k hk => ?_⟩
        rcases List.mem_cons.mp hk with rfl | hk
        · exact ⟨hd, hh, beq_iff_eq.mp hfull⟩
        · exact hpassed k hk
    · cases hw
      exact ⟨hh, fun k hk => nomatch hk⟩

/-- A header that can be read can be written. -/
theorem setHeader_of_header (hs : a.Sound) (hh : a.header seg = .ok hd) (hd' : Header) :
    ∃ b x, setHeader seg hd' a = .ok () b ∧ Rewrites {seg} a b ∧ a.cell seg = some x ∧
      x.HasSlot 0 ∧ b.cell seg = some (x.put 0 hd'.toSlot.bytes) := by
  obtain ⟨x, hx, hslot⟩ := hs.hasSlot_of_header hh
  obtain ⟨b, hok, rewrites, hb⟩ := setHeader_spec hs hx hslot hd'
  exact ⟨b, x, hok, rewrites, hx, hslot, hb⟩

section Written

variable {x : Cell} (hs : b.Sound) (hslot : x.HasSlot 0)
  (hb : b.cell seg = some (x.put 0 hd.toSlot.bytes))

include hs hslot hb

theorem header_written (hn : hd.next ≠ some 0) (ht : hd.top < 0x100000000) :
    b.header seg = .ok hd := by
  have hlen := Slot.length_bytes hd.toSlot
  unfold header
  rw [bind_eq_of_ok (hs.read_slot hb (hslot.put hslot hlen)), Cell.slot_put_self hslot hlen,
    Slot.ofBytes?_bytes]
  exact congrArg Except.ok (Header.ofSlot_toSlot hn ht)

/-- No other slot shows a header. -/
theorem readSlot_beside_header (ha : a.Sound) (hx : a.cell seg = some x) (hi : i ≠ 0) :
    b.readSlot seg i = a.readSlot seg i := by
  have hlen := Slot.length_bytes hd.toSlot
  rw [hs.readSlot_of_cell hb, ha.readSlot_of_cell hx, Cell.length_put hslot hlen,
    Cell.slot_put_ne hslot hlen hi]

end Written

/-! ## Writes that fail -/

theorem write_of_error (hrun : write seg i src a = .error f b) : b = a := by
  unfold write at hrun
  split at hrun
  · cases hrun
    rfl
  · split at hrun
    · cases hrun
    · cases hrun
      rfl

theorem writeSlot_of_error (hs : a.Sound) {e : Entry} (live : a.entry seg = .ok e)
    (hrun : writeSlot seg i o a = .error f b) :
    e.capacity < i * Slot.width + Slot.width ∧ f = missed i Slot.width := by
  have hspan := hs.placed.span_of_entry live i Slot.width
  by_cases hfit : i * Slot.width + Slot.width ≤ e.capacity
  · obtain ⟨c, hok, -⟩ := writeSlot_within hs live hfit o
    cases hok.symm.trans hrun
  · refine ⟨Nat.not_le.mp hfit, ?_⟩
    rw [if_neg hfit] at hspan
    unfold writeSlot write at hrun
    rw [Object.length_encode, hspan] at hrun
    cases hrun
    rfl

end Arena

namespace Stack

open Arena

variable {limit : Nat} {a b : Arena} {s : Stack} {f : Fault} {o : Object} {i : Nat} {hd : Header}

/-- The topmost value cannot be read, as it spells no object or lies outside its segment, and was
counted off all the same. -/
def TopLost (s : Stack) (a : Arena) (f : Fault) (b : Arena) : Prop :=
  ∃ seg hd, s.topSegment a = .ok (seg, hd) ∧ a.readSlot seg hd.top = .error f ∧
    Rewrites {seg} a b ∧ b.header seg = .ok { hd with top := hd.top - 1 }

/-- The segment is too small for the value that would fill it, and the next one was emptied or newly
linked all the same. -/
def NextLost (s : Stack) (a : Arena) (f : Fault) (b : Arena) : Prop :=
  f = .outsideStorage ∧ ∃ w e next, a.walk s.handle = .ok w ∧ w.header.top + 1 = segmentSize ∧
    a.entry w.segment = .ok e ∧ e.capacity < segmentBytes ∧ Touches {next} a b ∧
    ∃ hd, b.header next = .ok hd ∧ hd.top = 0

/-! ## Replacing values -/

theorem setBottom_of_error (hrun : s.setBottom i o a = .error f b) : b = a := by
  unfold setBottom at hrun
  obtain ⟨p, -, hwrite⟩ | ⟨-, rfl⟩ := ArenaM.exists_of_reading_bind_error hrun
  · exact write_of_error hwrite
  · rfl

theorem setTop_of_error (hrun : s.setTop i o a = .error f b) : b = a := by
  unfold setTop at hrun
  obtain ⟨j, -, hset⟩ | ⟨-, rfl⟩ := ArenaM.exists_of_reading_bind_error hrun
  · exact setBottom_of_error hset
  · rfl

/-! ## Taking values -/

/-- The segment of the topmost value has one. -/
theorem header_of_topSegment {seg : Handle} (htop : s.topSegment a = .ok (seg, hd)) :
    a.header seg = .ok hd ∧ hd.top ≠ 0 := by
  obtain ⟨w, hw, htop⟩ := exists_of_bind_ok htop
  obtain ⟨hlast, hpassed⟩ := walkFrom_headers hw
  split at htop
  · split at htop
    · cases htop
    · next k hk =>
      obtain ⟨hd', hh, htop⟩ := exists_of_bind_ok htop
      cases htop
      obtain ⟨full, hfull, hsize⟩ := hpassed seg (List.mem_of_getLast? hk)
      cases hh.symm.trans hfull
      exact ⟨hh, by rw [hsize]; decide⟩
  · next hne =>
    cases htop
    exact ⟨hlast, hne⟩

theorem pop_of_error (hs : a.Sound) (hrun : s.pop a = .error f b) : b = a ∨ s.TopLost a f b := by
  unfold pop at hrun
  obtain ⟨⟨seg, hd⟩, htop, hrest⟩ | ⟨-, rfl⟩ := ArenaM.exists_of_reading_bind_error hrun
  · obtain ⟨hh, hpos⟩ := header_of_topSegment htop
    have hlt := header_top_lt hh
    obtain ⟨c, x, hset, rewrites, hx, hslot, hc⟩ :=
      setHeader_of_header hs hh { hd with top := hd.top - 1 }
    have hnext := header_next_ne_zero hh
    have hheader := header_written rewrites.sound hslot hc hnext (show hd.top - 1 < _ by omega)
    -- the count is stored by now, but the value's slot is not the header's and reads as before
    have hsame := readSlot_beside_header rewrites.sound hslot hc hs hx hpos
    simp only at hrest
    rw [EStateM.bind_of_ok hset] at hrest
    cases hread : c.readSlot seg hd.top with
    | ok o =>
      rw [ArenaM.reading_of_ok hread] at hrest
      cases hrest
    | error g =>
      rw [ArenaM.reading_of_error hread] at hrest
      cases hrest
      exact .inr ⟨seg, hd, htop, hsame.symm.trans hread, rewrites, hheader⟩
  · exact .inl rfl

/-! ## Pushing values -/

/-- The segment linked next is empty, and every entity keeps its length. -/
theorem nextSegment_spec (hs : a.Sound) (hd : Header) :
    (∃ next b, nextSegment hd a = .ok next b ∧ Touches {next} a b ∧
      (∃ n, b.header next = .ok n ∧ n.top = 0) ∧
      ∀ k x, a.cell k = some x → ∃ y, b.cell k = some y ∧ y.bytes.length = x.bytes.length) ∨
    ∃ f, nextSegment hd a = .error f a := by
  unfold nextSegment
  cases hd.next with
  | none =>
    obtain ⟨next, b, hok, -, hdead, touches, hlaid⟩ | ⟨f, hfail, -⟩ := newSegment_spec hs
    · have hempty := hlaid.header_eq touches.sound (k := 0) rfl
      refine .inl ⟨next, b, hok, touches, ⟨_, hempty, rfl⟩, fun k x hx => ⟨x, ?_, rfl⟩⟩
      rw [touches.cell k, hx]
      rintro rfl
      cases hdead.symm.trans hx
    · exact .inr ⟨f, hfail⟩
  | some next =>
    cases hh : a.header next with
    | error f => exact .inr ⟨f, EStateM.bind_of_error (ArenaM.reading_of_error hh)⟩
    | ok n =>
      obtain ⟨b, x, hset, rewrites, hx, hslot, hb⟩ := setHeader_of_header hs hh { n with top := 0 }
      have hnext := header_next_ne_zero hh
      have hempty := header_written rewrites.sound hslot hb hnext (show 0 < _ by decide)
      refine .inl ⟨next, b, ?_, rewrites.toTouches, ⟨_, hempty, rfl⟩, fun k y hy => ?_⟩
      · simp only
        rw [ArenaM.reading_bind hh, EStateM.bind_of_ok hset]
        rfl
      · rcases eq_or_ne k next with rfl | hne
        · cases hx.symm.trans hy
          exact ⟨_, hb, Cell.length_put hslot (Slot.length_bytes _)⟩
        · exact ⟨y, by rw [rewrites.cell k hne, hy], rfl⟩

/-- Storing and counting a value fails only where the slot does not fit, and then does nothing. -/
theorem store_of_error {seg : Handle} {x : Cell} (hs : a.Sound) (hx : a.cell seg = some x)
    (hrun : (do Arena.writeSlot seg i o; Arena.setHeader seg hd : ArenaM Unit) a = .error f b) :
    b = a ∧ f = missed i Slot.width ∧ x.bytes.length < i * Slot.width + Slot.width := by
  obtain ⟨e, live, -⟩ := entry_of_cell hx
  cases hwrite : writeSlot seg i o a with
  | error g c =>
    rw [EStateM.bind_of_error hwrite] at hrun
    cases hrun
    obtain ⟨hsmall, hfault⟩ := writeSlot_of_error hs live hwrite
    refine ⟨write_of_error hwrite, hfault, ?_⟩
    rwa [hs.placed.length_cell live hx]
  | ok u c =>
    -- the header comes before the slot, so it fits if the slot does
    obtain ⟨rewrites, y, hy, hslot, hc⟩ := writeSlot_of_ok hs hwrite
    have hzero : y.HasSlot 0 := by
      unfold Cell.HasSlot at *
      omega
    obtain ⟨d, hset, -⟩ := setHeader_spec rewrites.sound hc
      (hzero.put hslot (Object.length_encode o)) hd
    rw [EStateM.bind_of_ok hwrite, hset] at hrun
    cases hrun

theorem push_of_error (hs : a.Sound) (hrun : s.push o a = .error f b) :
    b = a ∨ s.NextLost a f b := by
  unfold push at hrun
  obtain ⟨w, hw, hrest⟩ | ⟨-, rfl⟩ := ArenaM.exists_of_reading_bind_error hrun
  · obtain ⟨hh, -⟩ := walkFrom_headers hw
    obtain ⟨e, live⟩ := live_of_header hh
    have hx := cell_eq_of_entry live
    simp only at hrest
    split at hrest
    · next hlast =>
      obtain ⟨next, c, hnext, touches, hempty, hlengths⟩ | ⟨g, hnext⟩ := nextSegment_spec hs w.header
      · -- a header may name its own segment as the next one, so the cell is looked up again
        obtain ⟨y, hy, hlen⟩ := hlengths _ _ hx
        rw [EStateM.bind_of_ok hnext] at hrest
        obtain ⟨rfl, hfault, hsmall⟩ := store_of_error touches.sound hy hrest
        rw [hlen, hs.placed.length_cell live hx] at hsmall
        have hfull : w.header.top = 19 := Nat.succ.inj hlast
        rw [hfull] at hfault hsmall
        exact .inr ⟨hfault, w, e, next, hw, hlast, live, hsmall, touches, hempty⟩
      · rw [EStateM.bind_of_error hnext] at hrest
        cases hrest
        exact .inl rfl
    · exact .inl (store_of_error hs hx hrest).1
  · exact .inl rfl

/-- A failing access to a stack, whatever its handle names and whatever its segments spell, leaves
the arena as it was, but for two cases: a `pop` of a topmost value that cannot be read, and a `push`
that would fill a segment too small for it. -/
theorem failing_access_keeps (reached : Reachable limit a) (s : Stack) :
    (∀ o f b, s.push o a = .error f b → b = a ∨ s.NextLost a f b) ∧
    (∀ f b, s.pop a = .error f b → b = a ∨ s.TopLost a f b) ∧
    (∀ i o f b, s.setBottom i o a = .error f b → b = a) ∧
    ∀ i o f b, s.setTop i o a = .error f b → b = a := by
  obtain ⟨-, hs⟩ := reached.reach
  exact ⟨fun _ _ _ => push_of_error hs, fun _ _ => pop_of_error hs,
    fun _ _ _ _ => setBottom_of_error, fun _ _ _ _ => setTop_of_error⟩

/-- A segment with one value, whose bytes spell no object. -/
def spoiled : Arena :=
  (Call.write 1 1 (0x1F :: List.replicate 15 0)).run.after
    ((Call.write 1 0 (Header.mk none 1).toSlot.bytes).run.after
      ((Call.allocate 32 .stack).run.after (.empty 100)))

theorem reachable_spoiled : Reachable 100 spoiled :=
  ((Reachable.fresh.call (.allocate 32 .stack)).call (.write 1 0 (Header.mk none 1).toSlot.bytes)).call
    (.write 1 1 (0x1F :: List.replicate 15 0))

/-- There is no second value to replace. -/
theorem failing_access_keeps_spoiled :
    ∃ f b, (Stack.mk 1).setTop 1 .null spoiled = .error f b ∧ b = spoiled := by
  obtain ⟨-, -, -, hkeeps⟩ := failing_access_keeps reachable_spoiled ⟨1⟩
  have hindex : (Stack.mk 1).indexFromTop spoiled 1 "pot" = .error (.stackEmpty "pot") := by
    decide +kernel
  have hrun : (Stack.mk 1).setTop 1 .null spoiled = .error (.stackEmpty "pot") spoiled :=
    EStateM.bind_of_error (ArenaM.reading_of_error hindex)
  exact ⟨_, _, hrun, hkeeps 1 .null _ _ hrun⟩

/-- A header without room for a value says there are nineteen, and that five are in the next
segment. -/
def narrow : Arena :=
  (Call.write 2 0 (Header.mk none 5).toSlot.bytes).run.after
    ((Call.write 1 0 (Header.mk (some 2) 19).toSlot.bytes).run.after
      ((Call.allocate 16 .stack).run.after ((Call.allocate 16 .stack).run.after (.empty 100))))

theorem reachable_narrow : Reachable 100 narrow :=
  have allocated := (Reachable.fresh.call (.allocate 16 .stack)).call (.allocate 16 .stack)
  (allocated.call (.write 1 0 (Header.mk (some 2) 19).toSlot.bytes)).call
    (.write 2 0 (Header.mk none 5).toSlot.bytes)

/-- The failing `pop` does not give the value back, and it is no longer on the stack either. The
failing `push` empties the next segment. Neither chain is a circle. -/
theorem failing_access_loses :
    (Reachable 100 spoiled ∧ spoiled.chain 1 = .ok [1] ∧ (Stack.mk 1).count spoiled = .ok 1 ∧
      ∃ f b, (Stack.mk 1).pop spoiled = .error f b ∧ (Stack.mk 1).count b = .ok 0) ∧
    Reachable 100 narrow ∧ narrow.chain 1 = .ok [1, 2] ∧ (Stack.mk 2).count narrow = .ok 5 ∧
      ∃ f b, (Stack.mk 1).push .null narrow = .error f b ∧ (Stack.mk 2).count b = .ok 0 := by
  obtain ⟨f, hpop⟩ :=
    ArenaM.exists_error_after (m := (Stack.mk 1).pop) (a := spoiled) (by decide +kernel)
  obtain ⟨g, hpush⟩ := ArenaM.exists_error_after (m := (Stack.mk 1).push .null) (a := narrow)
    (by decide +kernel)
  refine ⟨⟨reachable_spoiled, ?_, ?_, f, _, hpop, ?_⟩, reachable_narrow, ?_, ?_, g, _, hpush, ?_⟩
  all_goals decide +kernel

end Stack

end BankedMemory
