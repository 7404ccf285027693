import BankedMemory.Proofs.Arena.Sound
import Mathlib.Data.Set.Insert
import Mathlib.Logic.Equiv.Basic

/-!
# What the operations on storage do

Each operation on rows and bytes is described by the cells it changes. `Touches F a b` says that `b`
is sound and shows the cells of `a` outside `F`; `Rewrites` adds that region and table keep their
sizes, which is so for all but allocation. Every operation built on these is followed through them,
never through rows and addresses.
-/

namespace BankedMemory.Arena

structure Touches (F : Set Handle) (a b : Arena) : Prop where
  sound : b.Sound
  cell : ∀ k, k ∉ F → b.cell k = a.cell k
  saves : b.saves = a.saves
  limit : b.limit = a.limit

structure Rewrites (F : Set Handle) (a b : Arena) : Prop extends Touches F a b where
  length : b.region.length = a.region.length
  size : b.table.size = a.table.size

variable {F G : Set Handle} {a b c : Arena} {h k : Handle} {x y : Cell} {e : Entry}

theorem Touches.refl (hs : a.Sound) : Touches F a a :=
  ⟨hs, fun _ _ => rfl, rfl, rfl⟩

theorem Touches.mono (t : Touches F a b) (hFG : ∀ k ∈ F, k ∈ G) : Touches G a b :=
  ⟨t.sound, fun k hk => t.cell k fun hF => hk (hFG k hF), t.saves, t.limit⟩

theorem Touches.trans (t : Touches F a b) (u : Touches G b c) : Touches (F ∪ G) a c where
  sound := u.sound
  cell k hk := by
    rw [u.cell k fun hG => hk (Or.inr hG), t.cell k fun hF => hk (Or.inl hF)]
  saves := u.saves.trans t.saves
  limit := u.limit.trans t.limit

/-- The same rows are live if those that were touched are. -/
theorem Touches.live_iff (t : Touches F a b) (hF : ∀ k ∈ F, (b.Live k ↔ a.Live k)) (k : Handle) :
    b.Live k ↔ a.Live k := by
  by_cases hk : k ∈ F
  · exact hF k hk
  · rw [live_iff_cell, t.cell k hk, ← live_iff_cell]

/-- One set for both steps. -/
theorem Touches.comp (t : Touches F a b) (u : Touches F b c) : Touches F a c :=
  (t.trans u).mono fun _ hk => hk.elim id id

theorem Rewrites.refl (hs : a.Sound) : Rewrites F a a := ⟨.refl hs, rfl, rfl⟩

theorem Rewrites.mono (t : Rewrites F a b) (hFG : ∀ k ∈ F, k ∈ G) : Rewrites G a b :=
  ⟨t.toTouches.mono hFG, t.length, t.size⟩

theorem Rewrites.comp (t : Rewrites F a b) (u : Rewrites F b c) : Rewrites F a c :=
  ⟨t.toTouches.comp u.toTouches, u.length.trans t.length, u.size.trans t.size⟩

/-! ## Rows -/

theorem cell_eq_of_row (hrow : a.table[h.toNat]? = some e) (hk : e.kind ≠ .free) :
    a.cell h = some ⟨a.region.run e.address e.capacity, e.mark, e.kind⟩ :=
  cell_eq_of_entry (entry_eq_ok_iff.mpr ⟨hrow, hk⟩)

theorem cell_eq_none_of_free (hrow : a.table[h.toNat]? = some e) (hk : e.kind = .free) :
    a.cell h = none := by
  rw [cell_eq_none_iff]
  rintro ⟨f, hf⟩
  obtain ⟨hrow', hk'⟩ := entry_eq_ok_iff.mp hf
  rw [hrow] at hrow'
  cases hrow'
  exact hk' hk

/-- A cell is decided by its row and the bytes there. -/
theorem cell_congr (hrow : b.table[h.toNat]? = a.table[h.toNat]?)
    (hrun : ∀ e, a.table[h.toNat]? = some e →
      b.region.run e.address e.capacity = a.region.run e.address e.capacity) :
    b.cell h = a.cell h := by
  have hentry : b.entry h = a.entry h := by unfold entry; rw [hrow]
  unfold cell
  rw [hentry]
  cases he : a.entry h with
  | error f => rfl
  | ok e => simp only; rw [hrun e (entry_eq_ok_iff.mp he).1]

theorem toNat_ne (hne : h ≠ k) : h.toNat ≠ k.toNat := fun heq => hne (UInt32.toNat_inj.mp heq)

/-- Soundness when the rows only trade places: row `i` now has the storage of row `σ i`. -/
theorem Sound.of_rows (hs : a.Sound) (hlimit : b.limit = a.limit)
    (hlength : b.region.length = a.region.length) (hsize : b.table.size = a.table.size)
    (σ : Nat → Nat) (hσ : ∀ i j, σ i = σ j → i = j)
    (hrow : ∀ i e, b.table[i]? = some e → ∃ f, a.table[σ i]? = some f ∧
      e.address = f.address ∧ e.capacity = f.capacity)
    (hres : ∀ i e, b.table[i]? = some e → (e.kind = .reserved ↔ i = 0))
    (hnodup : b.freed.Nodup)
    (hfreed : ∀ h : Handle, h ∈ b.freed ↔ ∃ e, b.table[h.toNat]? = some e ∧ e.kind = .free) :
    b.Sound where
  region_le := hlength ▸ hs.region_le
  length_le := by rw [hlimit, hlength]; exact hs.length_le
  size_pos := hsize ▸ hs.size_pos
  size_le := hsize ▸ hs.size_le
  inside := by
    intro i e hi
    obtain ⟨f, hf, hadr, hcap⟩ := hrow i e hi
    rw [hadr, hcap, hlength]
    exact hs.inside hf
  apart := by
    intro i j e f hij hi hj
    obtain ⟨e', he', hadr, hcap⟩ := hrow i e hi
    obtain ⟨f', hf', hadr', hcap'⟩ := hrow j f hj
    have := hs.apart (fun heq => hij (hσ i j heq)) he' hf'
    unfold Apart at *
    omega
  reserved := by
    intro i e hi
    exact hres i e hi
  freed_nodup := hnodup
  mem_freed := hfreed

/-- The rows keep their kinds, so the same ones are reserved and free. -/
theorem Sound.of_kinds (hs : a.Sound) (hlimit : b.limit = a.limit)
    (hlength : b.region.length = a.region.length) (hsize : b.table.size = a.table.size)
    (σ : Nat → Nat) (hσ : ∀ i j, σ i = σ j → i = j)
    (hrow : ∀ i e, b.table[i]? = some e → ∃ f, a.table[σ i]? = some f ∧
      e.address = f.address ∧ e.capacity = f.capacity)
    (hfreed : b.freed = a.freed)
    (hkind : ∀ i : Nat, b.table[i]?.map (·.kind) = a.table[i]?.map (·.kind)) : b.Sound := by
  refine hs.of_rows hlimit hlength hsize σ hσ hrow ?_ (hfreed ▸ hs.freed_nodup) fun h => ?_
  · intro i e hi
    have hsame := hkind i
    rw [hi, Option.map_some] at hsame
    obtain ⟨f, hf, hfk⟩ := Option.map_eq_some_iff.mp hsame.symm
    rw [← hfk]
    exact hs.reserved hf
  · have hfree : ∀ t : Array Entry, (∃ e, t[h.toNat]? = some e ∧ e.kind = .free) ↔
        t[h.toNat]?.map (·.kind) = some .free := fun t => Option.map_eq_some_iff.symm
    rw [hfreed, hs.mem_freed, hfree, hfree, hkind]

theorem getElem?_modify_row {rows : Array Entry} {n : Nat} (f : Entry → Entry)
    (hrow : rows[n]? = some e) (i : Nat) :
    (rows.modify n f)[i]? = if i = n then some (f e) else rows[i]? := by
  rw [Array.getElem?_modify]
  rcases eq_or_ne i n with rfl | hne
  · rw [if_pos rfl, if_pos rfl, hrow]
    rfl
  · rw [if_neg (Ne.symm hne), if_neg hne]

/-! ## Writing in place -/

/-- Bytes written within a row are seen through its handle alone. -/
theorem overwrite_row (hs : a.Sound) (he : a.entry h = .ok e) {start : Nat} {src : List UInt8}
    (hstart : e.address ≤ start) (hstop : start + src.length ≤ e.address + e.capacity) :
    Rewrites {h} a { a with region := a.region.overwrite start src } := by
  obtain ⟨hrow, -⟩ := entry_eq_ok_iff.mp he
  refine ⟨⟨⟨?_, ?_, hs.size_pos, hs.size_le, ?_, hs.apart, hs.reserved, hs.freed_nodup,
    hs.mem_freed⟩, fun k hne => cell_congr rfl fun f hf => ?_, rfl, rfl⟩, Region.length_overwrite ..,
    rfl⟩
  · rw [Region.length_overwrite]
    exact hs.region_le
  · rw [Region.length_overwrite]
    exact hs.length_le
  · intro j f hj
    rw [Region.length_overwrite]
    exact hs.inside hj
  · refine Region.run_overwrite_apart ?_
    have := hs.apart (toNat_ne hne) hf hrow
    unfold Apart at this
    omega

theorem write_spec (hs : a.Sound) (hc : a.cell h = some x) {i : Nat} {src : List UInt8}
    (hi : i * src.length + src.length ≤ x.bytes.length) :
    ∃ b, write h i src a = .ok () b ∧ Rewrites {h} a b ∧
      b.cell h = some { x with bytes := patch x.bytes (i * src.length) src } := by
  obtain ⟨e, he, rfl⟩ := entry_of_cell hc
  obtain ⟨hrow, hk⟩ := entry_eq_ok_iff.mp he
  have hlen := hs.placed.length_cell he hc
  simp only at hlen hi
  have hin := hs.inside hrow
  refine ⟨{ a with region := a.region.overwrite (e.address + i * src.length) src }, ?_,
    overwrite_row hs he (Nat.le_add_right ..) (by omega), ?_⟩
  · unfold write
    rw [hs.placed.span_eq he (by omega)]
    simp only
    rw [if_pos ⟨by omega, by omega⟩]
  · refine Eq.trans (cell_eq_of_row hrow hk) ?_
    simp only
    rw [Region.run_overwrite_inside (by omega) hin]

/-- A change of one row that leaves its storage, and whether it is free, as it was. -/
theorem modify_row (hs : a.Sound) (f : Entry → Entry)
    (hf : ∀ e, (f e).address = e.address ∧ (f e).capacity = e.capacity ∧ (f e).kind = e.kind) :
    Rewrites {h} a { a with table := a.table.modify h.toNat f } := by
  have hget : ∀ (i : Nat) (e' : Entry), (a.table.modify h.toNat f)[i]? = some e' →
      ∃ e, a.table[i]? = some e ∧ e'.address = e.address ∧ e'.capacity = e.capacity ∧
        e'.kind = e.kind := by
    intro i e' hi
    rw [Array.getElem?_modify] at hi
    split at hi
    · obtain ⟨e, he, rfl⟩ := Option.map_eq_some_iff.mp hi
      exact ⟨e, he, hf e⟩
    · exact ⟨e', hi, rfl, rfl, rfl⟩
  refine ⟨⟨hs.of_kinds rfl rfl (Array.size_modify ..) id (fun _ _ => id) ?_ rfl fun i => ?_,
    fun k hne => cell_congr ?_ fun _ _ => rfl, rfl, rfl⟩, rfl, Array.size_modify ..⟩
  · intro i e' hi
    obtain ⟨e, he, hadr, hcap, -⟩ := hget i e' hi
    exact ⟨e, he, hadr, hcap⟩
  · simp only
    rw [Array.getElem?_modify]
    split
    · rw [Option.map_map]
      exact congrArg (Option.map · _) (funext fun e => (hf e).2.2)
    · rfl
  · simp only
    rw [Array.getElem?_modify, if_neg (toNat_ne fun heq => hne heq.symm)]

theorem setMark_spec (hs : a.Sound) (hc : a.cell h = some x) (mark : Mark) :
    ∃ b, setMark h mark a = .ok () b ∧ Rewrites {h} a b ∧ b.cell h = some { x with mark } := by
  obtain ⟨e, he, rfl⟩ := entry_of_cell hc
  obtain ⟨hrow, hk⟩ := entry_eq_ok_iff.mp he
  refine ⟨{ a with table := a.table.modify h.toNat fun e => { e with mark } }, ?_,
    modify_row hs _ fun _ => ⟨rfl, rfl, rfl⟩, ?_⟩
  · unfold setMark; rw [he]
  · refine cell_eq_of_row (e := { e with mark }) ?_ hk
    simp only
    rw [Array.getElem?_modify, if_pos rfl, hrow]
    rfl

theorem copyContents_spec (hs : a.Sound) (hx : a.cell h = some x) (hy : a.cell k = some y)
    (hle : x.bytes.length ≤ y.bytes.length) :
    ∃ b, copyContents h k a = .ok () b ∧ Rewrites {k} a b ∧
      b.cell k = some { y with bytes := patch y.bytes 0 x.bytes } := by
  obtain ⟨e, he, rfl⟩ := entry_of_cell hx
  obtain ⟨f, hf, rfl⟩ := entry_of_cell hy
  obtain ⟨hrow, hk⟩ := entry_eq_ok_iff.mp hf
  have hlen := hs.placed.length_cell he hx
  have hlen' := hs.placed.length_cell hf hy
  simp only at hlen hlen' hle
  have hin := hs.inside (entry_eq_ok_iff.mp he).1
  have hin' := hs.inside hrow
  refine ⟨{ a with region := a.region.overwrite f.address (a.region.run e.address e.capacity) }, ?_,
    overwrite_row hs hf (Nat.le_refl _) (by omega), ?_⟩
  · unfold copyContents
    rw [he, hf]
    simp only
    rw [if_neg (by omega), Region.slice?_eq_run hin]
  · refine Eq.trans (cell_eq_of_row hrow hk) ?_
    simp only
    have hrun : (a.region.overwrite (f.address + 0) (a.region.run e.address e.capacity)).run
        f.address f.capacity = patch (a.region.run f.address f.capacity) 0
          (a.region.run e.address e.capacity) :=
      Region.run_overwrite_inside (by omega) hin'
    rw [Nat.add_zero] at hrun
    rw [hrun]

/-! ## Marks and places of many rows -/

/-- The mark with its top level lowered to `level` at most. -/
def lowerMark (level : UInt32) (m : Mark) : Mark :=
  if level < m.topLevel then m.withTopLevel level else m

@[simp] theorem lowerMark_blank (level : UInt32) : lowerMark level .blank = .blank :=
  if_neg (Nat.not_lt_zero _)

theorem lowerRow_of_live (level : UInt32) (hk : e.kind ≠ .free) :
    lowerRow level e = { e with mark := lowerMark level e.mark } := by
  have hfree : e.isFree = false := by simpa [Entry.isFree] using hk
  unfold lowerRow lowerMark
  rw [hfree]
  by_cases hlt : level < e.mark.topLevel <;> simp [hlt]

theorem lowerRow_place (level : UInt32) (e : Entry) :
    (lowerRow level e).address = e.address ∧ (lowerRow level e).capacity = e.capacity ∧
      (lowerRow level e).kind = e.kind := by
  unfold lowerRow
  split <;> exact ⟨rfl, rfl, rfl⟩

theorem lowerTopLevels_spec (hs : a.Sound) (level : UInt32) :
    ∃ n b, lowerTopLevels level a = .ok n b ∧ Rewrites Set.univ a b ∧
      ∀ k, b.cell k = (a.cell k).map fun x => { x with mark := lowerMark level x.mark } := by
  have hget : ∀ (i : Nat) (e' : Entry), (a.table.map (lowerRow level))[i]? = some e' →
      ∃ e, a.table[i]? = some e ∧ e' = lowerRow level e := by
    intro i e' hi
    rw [Array.getElem?_map] at hi
    obtain ⟨e, he, rfl⟩ := Option.map_eq_some_iff.mp hi
    exact ⟨e, he, rfl⟩
  refine ⟨_, _, rfl, ⟨⟨hs.of_kinds rfl rfl (Array.size_map ..) id (fun _ _ => id) ?_ rfl fun i => ?_,
    fun k hk => absurd trivial hk, rfl, rfl⟩, rfl, Array.size_map ..⟩, ?_⟩
  · intro i e' hi
    obtain ⟨e, he, rfl⟩ := hget i e' hi
    exact ⟨e, he, (lowerRow_place level e).1, (lowerRow_place level e).2.1⟩
  · simp only
    rw [Array.getElem?_map, Option.map_map]
    exact congrArg (Option.map · _) (funext fun e => (lowerRow_place level e).2.2)
  · intro k
    cases hc : a.cell k with
    | none =>
      rw [cell_eq_none_iff] at hc
      rw [Option.map_none, cell_eq_none_iff]
      rintro ⟨e', he'⟩
      obtain ⟨hrow, hk⟩ := entry_eq_ok_iff.mp he'
      obtain ⟨e, he, rfl⟩ := hget _ e' hrow
      rw [(lowerRow_place level e).2.2] at hk
      exact hc ⟨e, entry_eq_ok_iff.mpr ⟨he, hk⟩⟩
    | some x =>
      obtain ⟨e, he, rfl⟩ := entry_of_cell hc
      obtain ⟨hrow, hk⟩ := entry_eq_ok_iff.mp he
      refine Eq.trans (cell_eq_of_row (e := { e with mark := lowerMark level e.mark }) ?_ hk) rfl
      simp only
      rw [Array.getElem?_map, hrow, Option.map_some, lowerRow_of_live level hk]

/-- The rows at `i` and `j`, which are `e` and `f`, with the storage and the mark of each other. -/
def trade (rows : Array Entry) (i j : Nat) (e f : Entry) : Array Entry :=
  (rows.modify i (·.withStorageOf f)).modify j (·.withStorageOf e)

section Trade

variable {rows : Array Entry} {i j : Nat} {f : Entry}

theorem getElem?_trade (hij : i ≠ j) (hi : rows[i]? = some e) (hj : rows[j]? = some f) (n : Nat) :
    (trade rows i j e f)[n]? = if n = j then some (f.withStorageOf e)
      else if n = i then some (e.withStorageOf f) else rows[n]? := by
  have hj' : (rows.modify i (·.withStorageOf f))[j]? = some f := by
    rw [getElem?_modify_row _ hi, if_neg (Ne.symm hij), hj]
  rw [trade, getElem?_modify_row _ hj', getElem?_modify_row _ hi]

theorem kind_trade (hij : i ≠ j) (hi : rows[i]? = some e) (hj : rows[j]? = some f) (n : Nat) :
    (trade rows i j e f)[n]?.map (·.kind) = rows[n]?.map (·.kind) := by
  rw [getElem?_trade hij hi hj]
  split
  · next heq => rw [heq, hj]; rfl
  · split
    · next heq => rw [heq, hi]; rfl
    · rfl

/-- Each row has the place of one before. -/
theorem place_trade (hij : i ≠ j) (hi : rows[i]? = some e) (hj : rows[j]? = some f) {n : Nat}
    {g : Entry} (hn : (trade rows i j e f)[n]? = some g) :
    ∃ g', rows[Equiv.swap i j n]? = some g' ∧ g.address = g'.address ∧ g.capacity = g'.capacity := by
  rw [getElem?_trade hij hi hj] at hn
  split at hn
  · next heq =>
    cases hn
    refine ⟨e, ?_, rfl, rfl⟩
    rw [heq, Equiv.swap_apply_right, hi]
  · next hnj =>
    split at hn
    · next heq =>
      cases hn
      refine ⟨f, ?_, rfl, rfl⟩
      rw [heq, Equiv.swap_apply_left, hj]
    · next hni =>
      refine ⟨g, ?_, rfl, rfl⟩
      rw [Equiv.swap_apply_of_ne_of_ne hni hnj, hn]

/-- A row that trades with itself stays as it is. -/
theorem trade_self (hi : rows[i]? = some e) : trade rows i i e e = rows := by
  have hself : e.withStorageOf e = e := rfl
  refine Array.ext_getElem? fun n => ?_
  have hi' : (rows.modify i (·.withStorageOf e))[i]? = some e := by
    rw [getElem?_modify_row _ hi, if_pos rfl, hself]
  rw [trade, getElem?_modify_row _ hi', getElem?_modify_row _ hi, hself]
  rcases eq_or_ne n i with rfl | hne
  · rw [if_pos rfl, hi]
  · rw [if_neg hne, if_neg hne]

end Trade

/-- The rows trade storage and marks, so each handle shows the other's bytes. -/
theorem exchange_spec (hs : a.Sound) (hne : h ≠ k) (hx : a.cell h = some x)
    (hy : a.cell k = some y) :
    ∃ b, exchange h k a = .ok () b ∧ Rewrites {h, k} a b ∧
      b.cell h = some { y with kind := x.kind } ∧ b.cell k = some { x with kind := y.kind } := by
  obtain ⟨e, he, rfl⟩ := entry_of_cell hx
  obtain ⟨f, hf, rfl⟩ := entry_of_cell hy
  obtain ⟨hrow, hk⟩ := entry_eq_ok_iff.mp he
  obtain ⟨hrow', hk'⟩ := entry_eq_ok_iff.mp hf
  have hidx := toNat_ne hne
  have hsize : (trade a.table h.toNat k.toNat e f).size = a.table.size := by simp [trade]
  have hget := getElem?_trade hidx hrow hrow'
  refine ⟨{ a with table := trade a.table h.toNat k.toNat e f }, ?_,
    ⟨⟨hs.of_kinds rfl rfl hsize (Equiv.swap h.toNat k.toNat)
      (fun _ _ heq => (Equiv.swap ..).injective heq) (fun _ _ hn => place_trade hidx hrow hrow' hn)
      rfl (kind_trade hidx hrow hrow'), fun j hj => cell_congr ?_ fun _ _ => rfl, rfl, rfl⟩, rfl,
      hsize⟩, ?_, ?_⟩
  · unfold exchange
    rw [he, hf]
    rfl
  · have hj' : j ≠ h ∧ j ≠ k := by simpa using hj
    simp only
    rw [hget, if_neg (toNat_ne hj'.2), if_neg (toNat_ne hj'.1)]
  · refine Eq.trans (cell_eq_of_row (e := e.withStorageOf f) ?_ hk) rfl
    simp only
    rw [hget, if_neg hidx, if_pos rfl]
  · refine Eq.trans (cell_eq_of_row (e := f.withStorageOf e) ?_ hk') rfl
    simp only
    rw [hget, if_pos rfl]

/-- Whichever two rows trade, the same ones are live. -/
theorem exchange_live (hs : a.Sound) (hh : a.Live h) (hk : a.Live k) :
    ∃ b, exchange h k a = .ok () b ∧ Rewrites {h, k} a b ∧ ∀ j, b.Live j ↔ a.Live j := by
  rcases eq_or_ne h k with rfl | hne
  · obtain ⟨e, he⟩ := hh
    refine ⟨a, ?_, .refl hs, fun _ => Iff.rfl⟩
    unfold exchange
    rw [he]
    exact congrArg (fun rows => EStateM.Result.ok () { a with table := rows })
      (trade_self (entry_eq_ok_iff.mp he).1)
  · obtain ⟨x, hx⟩ := live_iff_cell.mp hh
    obtain ⟨y, hy⟩ := live_iff_cell.mp hk
    obtain ⟨b, hrun, hr, hbx, hby⟩ := exchange_spec hs hne hx hy
    refine ⟨b, hrun, hr, hr.live_iff ?_⟩
    rintro j (rfl | rfl)
    · exact iff_of_true (live_iff_cell.mpr ⟨_, hbx⟩) hh
    · exact iff_of_true (live_iff_cell.mpr ⟨_, hby⟩) hk

/-- An entity that is not there cannot trade places. -/
theorem exchange_error (hdead : ¬a.Live h ∨ ¬a.Live k) : ∃ f, exchange h k a = .error f a := by
  unfold exchange
  cases he : a.entry h with
  | error f => exact ⟨f, rfl⟩
  | ok e =>
    cases hf : a.entry k with
    | error f => exact ⟨f, rfl⟩
    | ok f => exact (hdead.elim (· ⟨e, he⟩) (· ⟨f, hf⟩)).elim

end BankedMemory.Arena
