import BankedMemory.Proofs.Arena.FirstFit
import BankedMemory.Proofs.Arena.Tiling

/-!
# Bounds as exact arithmetic

The checks of reading, writing and growing are sums and products of words, and they let through what
unbounded arithmetic lets through: an element is read or written just when it lies in its entity,
and the region grows just when its new end is within the limit and within what a region can have.
What they turn away is an error of the client's, but for the sums that are no words: there the
program stops. The product of offset and width is checked before it is used, so `NoOverflow` asks
nothing of it. The sums after it are not: each width has one offset where the product is a word and
the sum is not (`noOverflow_iff`).
-/

namespace BankedMemory.Arena

/-- Element `i` of width `w` is read through `h`, which shows `bytes`, just when it lies in them. -/
structure ReadsExactly (a : Arena) (h : Handle) (bytes : List UInt8) (i w : Nat) : Prop where
  inside : i * w + w ≤ bytes.length → a.read h i w = .ok ((bytes.drop (i * w)).take w)
  outside : bytes.length < i * w + w → ∃ f, a.read h i w = .error f ∧ Missed i w f

/-- `src` is written as element `i` through `h`, which shows `bytes`, just when the element lies in
them. Then those bytes change, and what no other handle shows. -/
structure WritesExactly (a : Arena) (h : Handle) (bytes : List UInt8) (i : Nat) (src : List UInt8) :
    Prop where
  inside : i * src.length + src.length ≤ bytes.length →
    ∃ b, write h i src a = .ok () b ∧ b.contents h = some (patch bytes (i * src.length) src) ∧
      ∀ k, k ≠ h → SameThrough k a b
  outside : bytes.length < i * src.length + src.length →
    ∃ f, write h i src a = .error f a ∧ Missed i src.length f

/-- The region grows by `size` bytes just when its end stays within the limit and within what a
region can have, and there is a handle left. -/
structure GrowsExactly (limit : Nat) (a : Arena) (size : Nat) (content : Content) : Prop where
  inside : a.region.length + size ≤ limit → a.region.length + size ≤ longestRegion →
    a.table.size < UInt32.size →
      ∃ h b, allocate size content a = .ok h b ∧ b.region.length = a.region.length + size
  outside : limit < a.region.length + size ∨ longestRegion < a.region.length + size ∨
    a.table.size = UInt32.size → ∃ f, allocate size content a = .error f a ∧ Refuses a size f

variable {limit : Nat} {a : Arena} {h : Handle} {x : Cell} {i w size : Nat}

/-- The sum is no word at the last offset whose product is one, and at no other. -/
theorem noOverflow_iff (hpos : 0 < w) : NoOverflow i w ↔ i ≠ 0xFFFFFFFFFFFFFFFF / w := by
  have hlast := Nat.div_mul_le_self 0xFFFFFFFFFFFFFFFF w
  have hnext := Nat.lt_div_mul_add (a := 0xFFFFFFFFFFFFFFFF) hpos
  unfold NoOverflow
  constructor
  · rintro hw rfl
    have := hw (by omega)
    omega
  · -- before the last offset there is room for one element more
    intro hne hword
    have hle : i ≤ 0xFFFFFFFFFFFFFFFF / w := (Nat.le_div_iff_mul_le hpos).mpr (by omega)
    have hsucc : (i + 1) * w ≤ 0xFFFFFFFFFFFFFFFF / w * w := Nat.mul_le_mul_right w (by omega)
    rw [Nat.add_mul, Nat.one_mul] at hsucc
    omega

theorem Sound.readsExactly (hs : a.Sound) (hc : a.cell h = some x) (i w : Nat) :
    a.ReadsExactly h x.bytes i w where
  inside hfit := by rw [hs.placed.read_of_cell hc, if_pos hfit]
  outside hlong := by
    rw [hs.placed.read_of_cell hc, if_neg (Nat.not_le.mpr hlong)]
    exact ⟨_, rfl, missed_spec i w⟩

theorem Sound.writesExactly (hs : a.Sound) (hc : a.cell h = some x) (i : Nat) (src : List UInt8) :
    a.WritesExactly h x.bytes i src where
  inside hfit := by
    obtain ⟨b, hok, rewrites, hcell⟩ := write_spec hs hc hfit
    refine ⟨b, hok, ?_, fun k hk => rewrites.toTouches.sameThrough hs hk⟩
    rw [rewrites.sound.contents_eq, hcell, Option.map_some]
  outside hlong := by
    obtain ⟨e, he, -⟩ := entry_of_cell hc
    have hspan := hs.placed.span_of_entry he i src.length
    rw [if_neg (by rw [← hs.placed.length_cell he hc]; exact Nat.not_le.mpr hlong)] at hspan
    refine ⟨_, ?_, missed_spec i src.length⟩
    unfold write
    rw [hspan]

theorem Sound.growsExactly (hs : a.Sound) (hlimit : a.limit = limit)
    (hnone : a.freed.find? (a.hasRoom size) = none) (content : Content) :
    GrowsExactly limit a size content := by
  subst hlimit
  obtain ⟨h, e, hfind, -⟩ | ⟨-, ⟨hle, hregion, hroom, hok⟩ | ⟨f, hfail, refuses⟩⟩ :=
    allocate_cases hs size content
  · rw [hnone] at hfind
    cases hfind
  · constructor
    · intro _ _ _
      refine ⟨_, _, hok, ?_⟩
      rw [append_eq]
      exact Region.length_resize ..
    · rintro (hfull | hlong | hrows)
      · exact absurd hle (Nat.not_le.mpr hfull)
      · exact absurd hregion (Nat.not_le.mpr hlong)
      · exact absurd hroom (hrows ▸ Nat.lt_irrefl _)
  · constructor
    · intro hle hregion hroom
      have hword : longestRegion < 0x10000000000000000 := by decide
      cases refuses with
      | overflow noWord => exact absurd (hregion.trans_lt hword) (Nat.not_lt.mpr noWord)
      | arenaFull _ above => exact absurd hle (Nat.not_le.mpr above)
      | tableFull _ rows => exact absurd hroom (Nat.not_lt.mpr rows)
      | regionTooLong _ long => exact absurd hregion (Nat.not_le.mpr long)
    · exact fun _ => ⟨f, hfail, refuses⟩

/-- In every arena that calls lead to, the checks let through what exact arithmetic lets through,
for every offset, width and size. -/
theorem checks_exact (reached : Reachable limit a) :
    (∀ h e, a.entry h = .ok e → ∃ bytes, a.contents h = some bytes ∧ bytes.length = e.capacity ∧
      (∀ i w, a.ReadsExactly h bytes i w) ∧ ∀ i src, a.WritesExactly h bytes i src) ∧
    ∀ size content, a.freed.find? (a.hasRoom size) = none → GrowsExactly limit a size content := by
  obtain ⟨reach, hs⟩ := reached.reach
  refine ⟨fun h e he => ?_, fun size content hnone => ?_⟩
  · have hc := cell_eq_of_entry he
    refine ⟨_, ?_, hs.placed.length_cell he hc, hs.readsExactly hc, hs.writesExactly hc⟩
    rw [hs.contents_eq, hc, Option.map_some]
  · exact hs.growsExactly (reach.whole (sound_empty limit) rfl).1 hnone content

/-- Two entities of sixteen bytes below a limit of 64. -/
def twoEntities : Arena :=
  (Call.allocate 16 .string).run.after ((Call.allocate 16 .string).run.after (.empty 64))

theorem reachable_twoEntities : Reachable 64 twoEntities :=
  (Reachable.fresh.call (.allocate 16 .string)).call (.allocate 16 .string)

/-- The first of the two is read to its end and no further. -/
theorem checks_exact_twoEntities :
    twoEntities.read 1 0 16 = .ok (List.replicate 16 0) ∧
      ∃ f, twoEntities.read 1 1 16 = .error f ∧ f.report.condition = .unregistered := by
  obtain ⟨access, -⟩ := checks_exact reachable_twoEntities
  obtain ⟨bytes, hshown, hlen, hread, -⟩ := access 1 ⟨0, 16, .blank, .used .string⟩ (by decide +kernel)
  have hbytes : some bytes = some (List.replicate 16 0) := hshown.symm.trans (by decide +kernel)
  cases hbytes
  obtain ⟨f, hfail, missed⟩ := (hread 1 16).outside (by decide)
  exact ⟨(hread 0 16).inside (by decide), f, hfail,
    missed.error ((noOverflow_iff (by decide)).mpr (by decide))⟩

/-- At the last offset whose product is a word the program stops, though the element is as far
outside the entity as any that is turned away with an error. -/
theorem check_stops_at_last_offset :
    Reachable 64 twoEntities ∧ (∃ e, twoEntities.entry 2 = .ok e ∧ e.capacity = 16) ∧
      16 < 0xFFFFFFFFFFFFFFF * 16 + 16 ∧
      twoEntities.read 2 0xFFFFFFFFFFFFFFF 16 = .error .overflow ∧
      write 2 0xFFFFFFFFFFFFFFF (List.replicate 16 0xFF) twoEntities =
        .error .overflow twoEntities ∧
      Fault.overflow.report.condition ≠ .unregistered := by
  have hlive : twoEntities.entry 2 = .ok ⟨16, 16, .blank, .used .string⟩ := by decide +kernel
  have hspan : twoEntities.span 2 0xFFFFFFFFFFFFFFF 16 = .error .overflow := by decide +kernel
  refine ⟨reachable_twoEntities, ⟨_, hlive, rfl⟩, by decide, bind_eq_of_error hspan, ?_, by decide⟩
  unfold write
  rw [List.length_replicate, hspan]

end BankedMemory.Arena
