import BankedMemory.Proofs.Arena.Steps

/-!
# Outlines

The outline of a row is what is known of it by its handle, wherever its bytes lie: its kind, its
capacity and, while it is live, its mark and bytes. What an operation makes of the rows and bytes
is, in outline, a function of the outlines alone; addresses only have to keep the rows apart.
-/

namespace BankedMemory.Arena

structure Outline where
  kind : Kind
  capacity : Nat
  /-- The mark and the bytes of a live row. -/
  stored : Option (Mark × List UInt8)
deriving DecidableEq

namespace Outline

def written (i : Nat) (src : List UInt8) (o : Outline) : Outline :=
  { o with stored := o.stored.map fun (mark, bytes) => (mark, patch bytes i src) }

def marked (mark : Mark) (o : Outline) : Outline :=
  { o with stored := o.stored.map fun (_, bytes) => (mark, bytes) }

def lowered (level : UInt32) (o : Outline) : Outline :=
  { o with stored := o.stored.map fun (mark, bytes) => (lowerMark level mark, bytes) }

def withStorageOf (o p : Outline) : Outline :=
  { o with capacity := p.capacity, stored := p.stored }

def released (o : Outline) : Outline := ⟨.free, o.capacity, none⟩

def taken (content : Content) (o : Outline) : Outline :=
  ⟨.used content, o.capacity, some (.blank, List.replicate o.capacity 0)⟩

/-- The cell of a handle with this outline. -/
def cell (o : Outline) : Option Cell := o.stored.map fun (mark, bytes) => ⟨bytes, mark, o.kind⟩

end Outline

def outline (r : Region) (e : Entry) : Outline where
  kind := e.kind
  capacity := e.capacity
  stored := if e.isFree then none else some (e.mark, r.run e.address e.capacity)

def outlines (a : Arena) : Array Outline := a.table.map (outline a.region)

variable {a b : Arena} {h k : Handle} {e f : Entry} {r r' : Region} {i : Nat}

theorem outline_of_live (hk : e.kind ≠ .free) :
    outline r e = ⟨e.kind, e.capacity, some (e.mark, r.run e.address e.capacity)⟩ := by
  have hfree : e.isFree = false := by simpa [Entry.isFree] using hk
  unfold outline
  rw [hfree]
  rfl

theorem outline_of_free (hk : e.kind = .free) : outline r e = ⟨.free, e.capacity, none⟩ := by
  have hfree : e.isFree = true := by simpa [Entry.isFree] using hk
  unfold outline
  rw [hfree, hk]
  rfl

theorem outline_congr (hrun : r'.run e.address e.capacity = r.run e.address e.capacity) :
    outline r' e = outline r e := by
  unfold outline
  rw [hrun]

@[simp] theorem getElem?_outlines (a : Arena) (i : Nat) :
    a.outlines[i]? = a.table[i]?.map (outline a.region) :=
  Array.getElem?_map ..

@[simp] theorem size_outlines (a : Arena) : a.outlines.size = a.table.size := Array.size_map ..

theorem cell_eq_outline (a : Arena) (h : Handle) : a.cell h = a.outlines[h.toNat]?.bind (·.cell) := by
  rw [getElem?_outlines]
  cases hrow : a.table[h.toNat]? with
  | none =>
    have hdead : a.cell h = none := by
      rw [cell_eq_none_iff]
      rintro ⟨e, live⟩
      rw [(entry_eq_ok_iff.mp live).1] at hrow
      cases hrow
    rw [hdead]
    rfl
  | some e =>
    rw [Option.map_some, Option.bind_some]
    by_cases hk : e.kind = .free
    · rw [cell_eq_none_of_free hrow hk, outline_of_free hk]
      rfl
    · rw [cell_eq_of_row hrow hk, outline_of_live hk]
      rfl

/-! ## Where rows lie -/

namespace Placed

/-- Rows that only trade places: row `i` now has the storage of row `σ i`. -/
theorem of_rows (hp : a.Placed) (hlength : b.region.length = a.region.length)
    (σ : Nat → Nat) (hσ : ∀ i j, σ i = σ j → i = j)
    (hrow : ∀ i e, b.table[i]? = some e → ∃ f, a.table[σ i]? = some f ∧
      e.address = f.address ∧ e.capacity = f.capacity) : b.Placed where
  region_le := hlength ▸ hp.region_le
  inside hi := by
    obtain ⟨f, hf, haddress, hcapacity⟩ := hrow _ _ hi
    rw [haddress, hcapacity, hlength]
    exact hp.inside hf
  disjoint hij hi hj he hf := by
    obtain ⟨e', he', haddress, hcapacity⟩ := hrow _ _ hi
    obtain ⟨f', hf', haddress', hcapacity'⟩ := hrow _ _ hj
    unfold Entry.Covers at *
    rw [haddress, hcapacity] at he
    rw [haddress', hcapacity'] at hf
    exact hp.disjoint (fun heq => hij (hσ _ _ heq)) he' hf' he hf

theorem overwrite (hp : a.Placed) (start : Nat) (src : List UInt8) :
    ({ a with region := a.region.overwrite start src } : Arena).Placed :=
  hp.of_rows (Region.length_overwrite ..) id (fun _ _ => id) fun _ e hi => ⟨e, hi, rfl, rfl⟩

theorem modify (hp : a.Placed) (n : Nat) (g : Entry → Entry) (freed : List Handle)
    (hg : ∀ e, (g e).address = e.address ∧ (g e).capacity = e.capacity) :
    ({ a with table := a.table.modify n g, freed } : Arena).Placed := by
  refine hp.of_rows rfl id (fun _ _ => id) fun i e hi => ?_
  simp only [Array.getElem?_modify] at hi
  split at hi
  · obtain ⟨f, hf, rfl⟩ := Option.map_eq_some_iff.mp hi
    exact ⟨f, hf, hg f⟩
  · exact ⟨e, hi, rfl, rfl⟩

theorem lowerTopLevels (hp : a.Placed) (level : UInt32) :
    ({ a with table := a.table.map (lowerRow level) } : Arena).Placed := by
  refine hp.of_rows rfl id (fun _ _ => id) fun i e hi => ?_
  simp only [Array.getElem?_map] at hi
  obtain ⟨f, hf, rfl⟩ := Option.map_eq_some_iff.mp hi
  exact ⟨f, hf, (lowerRow_place level f).1, (lowerRow_place level f).2.1⟩

theorem exchange (hp : a.Placed) (live : a.entry h = .ok e) (live' : a.entry k = .ok f) :
    ({ a with table := trade a.table h.toNat k.toNat e f } : Arena).Placed := by
  obtain ⟨hrow, -⟩ := entry_eq_ok_iff.mp live
  obtain ⟨hrow', -⟩ := entry_eq_ok_iff.mp live'
  rcases eq_or_ne h k with rfl | hne
  · cases live.symm.trans live'
    rw [trade_self hrow]
    exact hp
  · exact hp.of_rows rfl (Equiv.swap h.toNat k.toNat)
      (fun _ _ heq => (Equiv.swap ..).injective heq)
      fun _ _ hn => place_trade (toNat_ne hne) hrow hrow' hn

theorem reuse (hp : a.Placed) (hrow : a.table[h.toNat]? = some e) (content : Content) :
    (a.reuse h content).Placed := by
  rw [reuse_eq hrow]
  exact (hp.overwrite _ _).modify _ _ _ fun _ => ⟨rfl, rfl⟩

/-- No old row reaches to where the region ended. -/
theorem append (hp : a.Placed) {size : Nat} (hregion : a.region.length + size ≤ longestRegion)
    (content : Content) : (a.append size content).Placed := by
  have hrow : ∀ i e, (a.table.push ⟨a.region.length, size, .blank, .used content⟩)[i]? = some e →
      (i = a.table.size ∧ e.address = a.region.length ∧ e.capacity = size) ∨
        a.table[i]? = some e := by
    intro i e hi
    rw [Array.getElem?_push] at hi
    split at hi
    · next heq =>
      cases hi
      exact .inl ⟨heq, rfl, rfl⟩
    · exact .inr hi
  rw [append_eq]
  refine ⟨?_, fun {i e} hi => ?_, fun {i j e f n} hij hi hj he hf => ?_⟩
  · show Region.length _ ≤ _
    rw [Region.length_resize]
    exact hregion
  · show _ ≤ Region.length _
    rw [Region.length_resize]
    rcases hrow i e hi with ⟨-, haddress, hcapacity⟩ | hi
    · omega
    · have := hp.inside hi
      omega
  · unfold Entry.Covers at he hf
    rcases hrow i e hi with ⟨hi, hei⟩ | hi <;> rcases hrow j f hj with ⟨hj, hfj⟩ | hj
    · omega
    · have := hp.inside hj
      omega
    · have := hp.inside hi
      omega
    · exact hp.disjoint hij hi hj he hf

/-- Bytes written within one row are no bytes of another. -/
theorem run_overwrite_other (hp : a.Placed) {j start : Nat} {src : List UInt8} (hij : i ≠ j)
    (hi : a.table[i]? = some e) (hj : a.table[j]? = some f) (hstart : e.address ≤ start)
    (hstop : start + src.length ≤ e.address + e.capacity) :
    (a.region.overwrite start src).run f.address f.capacity = a.region.run f.address f.capacity := by
  refine List.ext_getElem? fun k => ?_
  rw [Region.getElem?_run, Region.getElem?_run]
  split
  · next hk =>
    rw [Region.getElem?_overwrite, if_neg]
    rintro ⟨hlow, hhigh, -⟩
    exact hp.disjoint hij hi hj (n := f.address + k) ⟨by omega, by omega⟩ ⟨by omega, by omega⟩
  · rfl

end Placed

/-! ## What the operations make of the outlines -/

/-- One row is changed and the others show the same. -/
theorem outlines_of_row {n : Nat} {g : Entry → Entry} {G : Outline → Outline}
    (htable : ∀ i, b.table[i]? = if n = i then a.table[i]?.map g else a.table[i]?)
    (hother : ∀ i e, n ≠ i → a.table[i]? = some e → outline b.region e = outline a.region e)
    (hrow : ∀ e, a.table[n]? = some e → outline b.region (g e) = G (outline a.region e)) :
    b.outlines = a.outlines.modify n G := by
  refine Array.ext_getElem? fun i => ?_
  rw [getElem?_outlines, Array.getElem?_modify, getElem?_outlines, htable]
  split
  · next heq =>
    subst heq
    cases hi : a.table[n]? with
    | none => rfl
    | some e => exact congrArg some (hrow e hi)
  · next hne =>
    cases hi : a.table[i]? with
    | none => rfl
    | some e => exact congrArg some (hother i e hne hi)

/-- One row is changed and no byte. -/
theorem outlines_modify {n : Nat} {g : Entry → Entry} {G : Outline → Outline}
    (hrow : ∀ e, a.table[n]? = some e → outline a.region (g e) = G (outline a.region e))
    (freed : List Handle) :
    ({ a with table := a.table.modify n g, freed } : Arena).outlines = a.outlines.modify n G :=
  outlines_of_row (fun _ => Array.getElem?_modify ..) (fun _ _ _ _ => rfl) hrow

theorem outlines_overwrite (hp : a.Placed) (live : a.entry h = .ok e) (src : List UInt8)
    (hfit : i + src.length ≤ e.capacity) :
    ({ a with region := a.region.overwrite (e.address + i) src } : Arena).outlines =
      a.outlines.modify h.toNat (.written i src) := by
  obtain ⟨hrow, hk⟩ := entry_eq_ok_iff.mp live
  refine outlines_of_row (g := id) (fun i => by simp) (fun j f hne hj => ?_) fun f hf => ?_
  · exact outline_congr (hp.run_overwrite_other hne hrow hj (by omega) (by omega))
  · cases hrow.symm.trans hf
    rw [id, outline_of_live hk, outline_of_live hk]
    simp only
    rw [Region.run_overwrite_inside hfit (hp.inside hrow)]
    rfl

theorem outlines_setMark (live : a.entry h = .ok e) (mark : Mark) :
    ({ a with table := a.table.modify h.toNat fun e => { e with mark } } : Arena).outlines =
      a.outlines.modify h.toNat (.marked mark) := by
  obtain ⟨hrow, hk⟩ := entry_eq_ok_iff.mp live
  refine outlines_modify (fun f hf => ?_) a.freed
  cases hrow.symm.trans hf
  rw [outline_of_live hk, outline_of_live (by exact hk)]
  rfl

theorem outlines_free (h : Handle) :
    ({ a with
      table := a.table.modify h.toNat fun e => { e with kind := .free }
      freed := a.freed ++ [h] } : Arena).outlines = a.outlines.modify h.toNat .released :=
  outlines_modify (fun _ _ => rfl) _

theorem outlines_lowerTopLevels (level : UInt32) :
    ({ a with table := a.table.map (lowerRow level) } : Arena).outlines =
      a.outlines.map (.lowered level) := by
  refine Array.ext_getElem? fun i => ?_
  rw [getElem?_outlines, Array.getElem?_map, Array.getElem?_map, getElem?_outlines, Option.map_map,
    Option.map_map]
  refine congrArg (Option.map · _) (funext fun e => ?_)
  simp only [Function.comp_apply]
  by_cases hk : e.kind = .free
  · have hlow : (lowerRow level e) = e := by simp [lowerRow, Entry.isFree, hk]
    rw [hlow, outline_of_free hk]
    rfl
  · rw [lowerRow_of_live level hk, outline_of_live hk, outline_of_live (by exact hk)]
    rfl

theorem outline_withStorageOf (hk : e.kind ≠ .free) (hk' : f.kind ≠ .free) :
    outline r (e.withStorageOf f) = (outline r e).withStorageOf (outline r f) := by
  rw [outline_of_live hk, outline_of_live hk', outline_of_live (by exact hk)]
  rfl

/-- The two rows are changed one after the other, and the first may be the second too. -/
theorem outlines_exchange (live : a.entry h = .ok e) (live' : a.entry k = .ok f) :
    ({ a with table := trade a.table h.toNat k.toNat e f } : Arena).outlines =
      (a.outlines.modify h.toNat (·.withStorageOf (outline a.region f))).modify k.toNat
        (·.withStorageOf (outline a.region e)) := by
  obtain ⟨hrow, hk⟩ := entry_eq_ok_iff.mp live
  obtain ⟨hrow', hk'⟩ := entry_eq_ok_iff.mp live'
  let half : Arena := { a with table := a.table.modify h.toNat (·.withStorageOf f) }
  have hhalf : half.outlines = a.outlines.modify h.toNat (·.withStorageOf (outline a.region f)) := by
    refine outlines_modify (fun x hx => ?_) a.freed
    cases hrow.symm.trans hx
    exact outline_withStorageOf hk hk'
  rw [← hhalf]
  refine outlines_modify (a := half) (fun x hx => ?_) a.freed
  have hlive : x.kind ≠ .free := by
    rw [getElem?_modify_row _ hrow] at hx
    split at hx
    · cases hx
      exact hk
    · cases hrow'.symm.trans hx
      exact hk'
  exact outline_withStorageOf hlive hk

theorem outlines_reuse (hp : a.Placed) (hrow : a.table[h.toNat]? = some e) (content : Content) :
    (a.reuse h content).outlines = a.outlines.modify h.toNat (.taken content) := by
  rw [reuse_eq hrow]
  refine outlines_of_row (fun _ => Array.getElem?_modify ..) (fun i f hne hi => ?_) fun f hf => ?_
  · refine outline_congr (hp.run_overwrite_other hne hrow hi (Nat.le_refl _) ?_)
    rw [List.length_replicate]
  · cases hrow.symm.trans hf
    rw [outline_of_live (by simp)]
    simp only
    rw [Region.run_clear_self (hp.inside hrow)]
    rfl

theorem outlines_append (hp : a.Placed) (size : Nat) (content : Content) :
    (a.append size content).outlines =
      a.outlines.push ⟨.used content, size, some (.blank, List.replicate size 0)⟩ := by
  rw [append_eq]
  unfold outlines
  simp only
  rw [Array.map_push, outline_of_live (by simp)]
  simp only
  rw [Region.run_resize_new]
  congr 1
  refine Array.map_congr_left fun e he => ?_
  obtain ⟨i, hi, rfl⟩ := Array.mem_iff_getElem.mp he
  have hin := hp.inside (Array.getElem?_eq_getElem hi)
  exact outline_congr (Region.run_resize hin (by omega))

/-! ## What is counted over the rows -/

theorem countP_liveRows (a : Arena) (p : Mark → Bool) :
    a.liveRows.countP (p ·.mark) = a.outlines.toList.countP (·.stored.any (p ·.1)) := by
  unfold liveRows outlines
  rw [List.countP_filter, Array.toList_map, List.countP_map]
  refine congrArg (List.countP · _) (funext fun e => ?_)
  unfold outline
  cases hfree : e.isFree <;> simp [hfree]

theorem capacities_liveRows (a : Arena) :
    a.liveRows.map (·.capacity) =
      (a.outlines.toList.filter (·.stored.isSome)).map (·.capacity) := by
  unfold liveRows outlines
  rw [Array.toList_map, List.filter_map, List.map_map]
  have hlive : (fun e => !Entry.isFree e) = (·.stored.isSome) ∘ outline a.region := funext fun e => by
    unfold outline
    cases hfree : e.isFree <;> simp [hfree]
  rw [hlive]
  rfl

end BankedMemory.Arena
