import BankedMemory.Proofs.Arena.Calls
import BankedMemory.Proofs.Arena.Outlines

/-!
# Relocated arenas

Two arenas are `Relocated` if they differ in nothing but where the rows lie. A program is `Blind` if
it gives one answer on both and leaves them relocated; so are programs put together from blind ones,
by `Blind.bind` and its kin. The elementary operations are blind because of what they make of the
outlines.
-/

namespace BankedMemory

/-- The row without its place. -/
def Entry.unplaced (e : Entry) : Entry := { e with address := 0 }

/-- What a program answers, whatever arena it leaves. -/
def ArenaM.answer {α : Type} (m : ArenaM α) (a : Arena) : Except Fault α :=
  match m a with
  | .ok x _ => .ok x
  | .error f _ => .error f

namespace Arena

/-- Rows may lie elsewhere; all else is the same. -/
structure Relocated (a b : Arena) : Prop where
  placed : a.Placed
  placed' : b.Placed
  outlines : b.outlines = a.outlines
  freed : b.freed = a.freed
  length : b.region.length = a.region.length
  limit : b.limit = a.limit
  collectable : b.collectable = a.collectable
  saves : b.saves = a.saves

/-- Two outcomes with one answer, or one fault, that leave relocated arenas. -/
inductive Alike {α : Type} :
    EStateM.Result Fault Arena α → EStateM.Result Fault Arena α → Prop where
  | ok {x : α} {a b : Arena} (moved : Relocated a b) : Alike (.ok x a) (.ok x b)
  | error {f : Fault} {a b : Arena} (moved : Relocated a b) : Alike (.error f a) (.error f b)

/-- The program does not depend on where rows lie. -/
def Blind {α : Type} (m : ArenaM α) : Prop := ∀ ⦃a b : Arena⦄, Relocated a b → Alike (m a) (m b)

/-! ## Programs -/

section Programs

variable {α β : Type} {a b : Arena} {m : ArenaM α} {g : α → ArenaM β}

theorem Alike.answer_after (hm : Alike (m a) (m b)) :
    m.answer b = m.answer a ∧ Relocated (m.after a) (m.after b) := by
  unfold ArenaM.answer ArenaM.after
  generalize m a = outcome at hm
  generalize m b = outcome' at hm
  cases hm with
  | ok moved => exact ⟨rfl, moved⟩
  | error moved => exact ⟨rfl, moved⟩

theorem Alike.bind (hm : Alike (m a) (m b)) (hg : ∀ x, Blind (g x)) :
    Alike ((m >>= g) a) ((m >>= g) b) := by
  show Alike (EStateM.bind m g a) (EStateM.bind m g b)
  unfold EStateM.bind
  generalize m a = outcome at hm
  generalize m b = outcome' at hm
  cases hm with
  | ok moved => exact hg _ moved
  | error moved => exact .error moved

theorem Alike.map {f : α → β} (hm : Alike (m a) (m b)) : Alike ((f <$> m) a) ((f <$> m) b) := by
  rw [← bind_pure_comp]
  exact hm.bind fun x _ _ hab => .ok hab

namespace Blind

theorem pure (x : α) : Blind (Pure.pure x : ArenaM α) := fun _ _ hab => .ok hab

theorem throw (f : Fault) : Blind (MonadExcept.throw f : ArenaM α) := fun _ _ hab => .error hab

theorem bind (hm : Blind m) (hg : ∀ x, Blind (g x)) : Blind (m >>= g) := fun _ _ hab =>
  (hm hab).bind hg

theorem map {f : α → β} (hm : Blind m) : Blind (f <$> m) := fun _ _ hab => (hm hab).map

/-- What was read is the same in both arenas, so the rest is the same program. -/
theorem reading_bind {f : Arena → Except Fault α} (hf : ∀ ⦃a b⦄, Relocated a b → f b = f a)
    (hg : ∀ x, (∃ a, f a = .ok x) → Blind (g x)) : Blind (ArenaM.reading f >>= g) := by
  intro a b hab
  have hsame := hf hab
  cases hfa : f a with
  | ok x =>
    rw [hfa] at hsame
    rw [ArenaM.reading_bind hfa, ArenaM.reading_bind hsame]
    exact hg x ⟨a, hfa⟩ hab
  | error e =>
    rw [hfa] at hsame
    rw [EStateM.bind_of_error (ArenaM.reading_of_error hfa),
      EStateM.bind_of_error (ArenaM.reading_of_error hsame)]
    exact .error hab

theorem reading {f : Arena → Except Fault α} (hf : ∀ ⦃a b⦄, Relocated a b → f b = f a) :
    Blind (ArenaM.reading f) := by
  rw [← bind_pure (ArenaM.reading f)]
  exact reading_bind hf fun x _ => pure x

theorem refuse {c : Prop} [Decidable c] {f : Fault} {go : Unit → ArenaM α} (hgo : Blind (go ())) :
    Blind (if c then MonadExcept.throw f >>= go else go ()) := by
  split
  · exact (throw f).bind fun _ => hgo
  · exact hgo

theorem orUndo {undo : ArenaM Unit} (hm : Blind m) (hu : Blind undo) : Blind (m.orUndo undo) := by
  intro a b hab
  have first := hm hab
  unfold ArenaM.orUndo
  generalize m a = outcome at first
  generalize m b = outcome' at first
  cases first with
  | ok moved => exact .ok moved
  | @error f _ _ moved =>
    have second := hu moved
    simp only
    by_cases hstop : f.stops
    · rw [if_pos hstop, if_pos hstop]
      exact .error moved
    rw [if_neg hstop, if_neg hstop]
    generalize undo _ = outcome at second
    generalize undo _ = outcome' at second
    cases second with
    | ok moved => exact .error moved
    | error moved => exact .error moved

theorem forM {f : α → ArenaM Unit} {l : List α} (hf : ∀ x ∈ l, Blind (f x)) :
    Blind (l.forM f) := by
  induction l with
  | nil => exact pure ()
  | cons x l ih =>
    exact (hf x (List.mem_cons_self ..)).bind fun _ => ih fun y hy => hf y (List.mem_cons_of_mem _ hy)

end Blind

end Programs

variable {a b : Arena} {h k : Handle} {e e' f : Entry} {i w : Nat}

/-! ## Rows -/

namespace Relocated

theorem size (hab : Relocated a b) : b.table.size = a.table.size := by
  rw [← size_outlines, hab.outlines, size_outlines]

theorem cell (hab : Relocated a b) (h : Handle) : b.cell h = a.cell h := by
  rw [cell_eq_outline, hab.outlines, ← cell_eq_outline]

/-- A handle is dead in both arenas, or names rows of one outline. -/
theorem entry_cases (hab : Relocated a b) (h : Handle) :
    (a.entry h = .error .noSuchEntity ∧ b.entry h = .error .noSuchEntity) ∨
    ∃ e e', a.entry h = .ok e ∧ b.entry h = .ok e' ∧
      outline b.region e' = outline a.region e := by
  cases hc : a.cell h with
  | none => exact .inl ⟨entry_of_dead hc, entry_of_dead ((hab.cell h).trans hc)⟩
  | some x =>
    obtain ⟨e, live, -⟩ := entry_of_cell hc
    obtain ⟨e', live', -⟩ := entry_of_cell ((hab.cell h).trans hc)
    refine .inr ⟨e, e', live, live', ?_⟩
    have hrows : b.outlines[h.toNat]? = a.outlines[h.toNat]? := by rw [hab.outlines]
    rw [getElem?_outlines, getElem?_outlines, (entry_eq_ok_iff.mp live).1,
      (entry_eq_ok_iff.mp live').1] at hrows
    exact Option.some.inj hrows

end Relocated

/-- Rows of one outline have one mark and the same bytes. -/
theorem stored_of_outline {r r' : Region} (hk : e.kind ≠ .free)
    (hsame : outline r' e' = outline r e) :
    e'.mark = e.mark ∧ r'.run e'.address e'.capacity = r.run e.address e.capacity := by
  have hkind : e'.kind = e.kind := congrArg Outline.kind hsame
  rw [outline_of_live hk, outline_of_live (by rw [hkind]; exact hk)] at hsame
  injection hsame with _ _ hstored
  exact Prod.mk.inj (Option.some.inj hstored)

/-- They differ in nothing but their place. -/
theorem unplaced_of_outline {r r' : Region} (hk : e.kind ≠ .free)
    (hsame : outline r' e' = outline r e) : e'.unplaced = e.unplaced := by
  have hkind : e'.kind = e.kind := congrArg Outline.kind hsame
  have hcapacity : e'.capacity = e.capacity := congrArg Outline.capacity hsame
  unfold Entry.unplaced
  rw [hkind, hcapacity, (stored_of_outline hk hsame).1]

/-! ## The elementary operations -/

theorem blind_write {src : List UInt8} : Blind (write h i src) := by
  intro a b hab
  unfold write
  rcases hab.entry_cases h with ⟨hfail, hfail'⟩ | ⟨e, e', live, live', hsame⟩
  · have hspan : a.span h i src.length = .error .noSuchEntity := bind_eq_of_error hfail
    have hspan' : b.span h i src.length = .error .noSuchEntity := bind_eq_of_error hfail'
    rw [hspan, hspan']
    exact .error hab
  · have hcapacity : e'.capacity = e.capacity := congrArg Outline.capacity hsame
    have hin := hab.placed.inside (entry_eq_ok_iff.mp live).1
    have hin' := hab.placed'.inside (entry_eq_ok_iff.mp live').1
    rw [hab.placed.span_of_entry live, hab.placed'.span_of_entry live', hcapacity]
    by_cases hfit : i * src.length + src.length ≤ e.capacity
    · rw [if_pos hfit, if_pos hfit]
      simp only
      rw [if_pos ⟨by omega, by omega⟩, if_pos ⟨by omega, by omega⟩]
      refine .ok ⟨hab.placed.overwrite .., hab.placed'.overwrite .., ?_, hab.freed, ?_, hab.limit,
        hab.collectable, hab.saves⟩
      · rw [outlines_overwrite hab.placed live src hfit,
          outlines_overwrite hab.placed' live' src (by omega), hab.outlines]
      · simp only [Region.length_overwrite]
        exact hab.length
    · rw [if_neg hfit, if_neg hfit]
      exact .error hab

theorem blind_setMark {mark : Mark} : Blind (setMark h mark) := by
  intro a b hab
  unfold setMark
  rcases hab.entry_cases h with ⟨hfail, hfail'⟩ | ⟨e, e', live, live', -⟩
  · rw [hfail, hfail']
    exact .error hab
  · rw [live, live']
    refine .ok ⟨hab.placed.modify _ _ _ fun _ => ⟨rfl, rfl⟩,
      hab.placed'.modify _ _ _ fun _ => ⟨rfl, rfl⟩, ?_, hab.freed, hab.length, hab.limit,
      hab.collectable, hab.saves⟩
    rw [outlines_setMark live, outlines_setMark live', hab.outlines]

theorem blind_free : Blind (free h) := by
  intro a b hab
  unfold free
  rcases hab.entry_cases h with ⟨hfail, hfail'⟩ | ⟨e, e', live, live', hsame⟩
  · rw [hfail, hfail']
    exact .error hab
  · have hkind : e'.kind = e.kind := congrArg Outline.kind hsame
    rw [live, live']
    simp only
    rw [hkind]
    split
    · exact .error hab
    · refine .ok ⟨hab.placed.modify _ _ _ fun _ => ⟨rfl, rfl⟩,
        hab.placed'.modify _ _ _ fun _ => ⟨rfl, rfl⟩, ?_, ?_, hab.length, hab.limit,
        hab.collectable, hab.saves⟩
      · rw [outlines_free, outlines_free, hab.outlines]
      · rw [hab.freed]

theorem blind_lowerTopLevels {level : UInt32} : Blind (lowerTopLevels level) := by
  intro a b hab
  have hcount : b.liveRows.countP (fun e => decide (level < e.mark.topLevel)) =
      a.liveRows.countP (fun e => decide (level < e.mark.topLevel)) := by
    have habove := fun c => countP_liveRows c fun m => decide (level < m.topLevel)
    rw [habove, habove, hab.outlines]
  unfold lowerTopLevels
  rw [hcount]
  refine .ok ⟨hab.placed.lowerTopLevels level, hab.placed'.lowerTopLevels level, ?_, hab.freed,
    hab.length, hab.limit, hab.collectable, hab.saves⟩
  rw [outlines_lowerTopLevels, outlines_lowerTopLevels, hab.outlines]

theorem blind_copyContents : Blind (copyContents h k) := by
  intro a b hab
  unfold copyContents
  rcases hab.entry_cases h with ⟨hfail, hfail'⟩ | ⟨e, e', live, live', hsame⟩
  · rw [hfail, hfail']
    exact .error hab
  · rcases hab.entry_cases k with ⟨hfail, hfail'⟩ | ⟨f, f', livef, livef', hsame'⟩
    · rw [live, live', hfail, hfail']
      exact .error hab
    · have hcapacity : e'.capacity = e.capacity := congrArg Outline.capacity hsame
      have hcapacity' : f'.capacity = f.capacity := congrArg Outline.capacity hsame'
      have hin := hab.placed.inside (entry_eq_ok_iff.mp live).1
      have hin' := hab.placed'.inside (entry_eq_ok_iff.mp live').1
      have hbytes := (stored_of_outline (entry_eq_ok_iff.mp live).2 hsame).2
      rw [live, live', livef, livef']
      simp only
      rw [Region.slice?_eq_run hin, Region.slice?_eq_run hin', hbytes, hcapacity', hcapacity]
      split
      · exact .error hab
      · have hlen := Region.length_run hin
        refine .ok ⟨hab.placed.overwrite .., hab.placed'.overwrite .., ?_, hab.freed, ?_, hab.limit,
          hab.collectable, hab.saves⟩
        · have hset := outlines_overwrite (i := 0) hab.placed livef
            (a.region.run e.address e.capacity) (by omega)
          have hset' := outlines_overwrite (i := 0) hab.placed' livef'
            (a.region.run e.address e.capacity) (by omega)
          rw [Nat.add_zero] at hset hset'
          rw [hset, hset', hab.outlines]
        · simp only [Region.length_overwrite]
          exact hab.length

theorem blind_exchange : Blind (exchange h k) := by
  intro a b hab
  unfold exchange
  rcases hab.entry_cases h with ⟨hfail, hfail'⟩ | ⟨e, e', live, live', hsame⟩
  · rw [hfail, hfail']
    exact .error hab
  · rcases hab.entry_cases k with ⟨hfail, hfail'⟩ | ⟨f, f', livef, livef', hsame'⟩
    · rw [live, live', hfail, hfail']
      exact .error hab
    · rw [live, live', livef, livef']
      refine .ok ⟨hab.placed.exchange live livef, hab.placed'.exchange live' livef', ?_, hab.freed,
        hab.length, hab.limit, hab.collectable, hab.saves⟩
      have htrade := outlines_exchange live livef
      have htrade' := outlines_exchange live' livef'
      unfold trade at htrade htrade'
      rw [htrade, htrade', hsame, hsame', hab.outlines]

theorem Relocated.hasRoom (hab : Relocated a b) (size : Nat) : b.hasRoom size = a.hasRoom size := by
  have hroom : ∀ (c : Arena) (h : Handle), c.hasRoom size h =
      c.outlines[h.toNat]?.any fun o => decide (size ≤ o.capacity) := fun c h => by
    unfold Arena.hasRoom
    rw [getElem?_outlines]
    cases c.table[h.toNat]? <;> rfl
  funext h
  rw [hroom, hroom, hab.outlines]

theorem Relocated.reuse (hab : Relocated a b) (hrow : a.table[h.toNat]? = some e)
    (content : Content) : Relocated (a.reuse h content) (b.reuse h content) := by
  obtain ⟨e', hrow'⟩ : ∃ e', b.table[h.toNat]? = some e' := by
    have hlt := (Array.getElem?_eq_some_iff.mp hrow).1
    exact ⟨_, Array.getElem?_eq_getElem (by rw [hab.size]; exact hlt)⟩
  refine ⟨hab.placed.reuse hrow content, hab.placed'.reuse hrow' content, ?_, ?_, ?_, ?_, ?_, ?_⟩
  · rw [outlines_reuse hab.placed hrow, outlines_reuse hab.placed' hrow', hab.outlines]
  all_goals rw [reuse_eq hrow, reuse_eq hrow']
  · simp only
    rw [hab.freed]
  · simp only [Region.clear, Region.length_overwrite]
    exact hab.length
  · exact hab.limit
  · exact hab.collectable
  · exact hab.saves

theorem Relocated.append (hab : Relocated a b) {size : Nat}
    (hregion : a.region.length + size ≤ longestRegion) (content : Content) :
    Relocated (a.append size content) (b.append size content) := by
  have hregion' : b.region.length + size ≤ longestRegion := by
    rw [hab.length]
    exact hregion
  refine ⟨hab.placed.append hregion content, hab.placed'.append hregion' content, ?_, ?_, ?_, ?_,
    ?_, ?_⟩
  · rw [outlines_append hab.placed, outlines_append hab.placed', hab.outlines]
  all_goals rw [append_eq, append_eq]
  · exact hab.freed
  · simp only [Region.length_resize]
    rw [hab.length]
  · exact hab.limit
  · exact hab.collectable
  · exact hab.saves

theorem blind_allocate {size : Nat} {content : Content} : Blind (allocate size content) := by
  intro a b hab
  unfold allocate
  rw [hab.freed, hab.hasRoom, hab.limit, hab.length, hab.size]
  cases hfind : a.freed.find? (a.hasRoom size) with
  | some h =>
    obtain ⟨e, hrow⟩ : ∃ e, a.table[h.toNat]? = some e := by
      have hroom := List.find?_some hfind
      unfold Arena.hasRoom at hroom
      cases hrow : a.table[h.toNat]? with
      | none =>
        rw [hrow] at hroom
        cases hroom
      | some e => exact ⟨e, rfl⟩
    exact .ok (hab.reuse hrow content)
  | none =>
    unfold addWords
    simp only
    by_cases hword : a.region.length + size < 0x10000000000000000
    · rw [if_pos hword]
      simp only
      split
      · exact .error hab
      · split
        · exact .error hab
        · split
          · exact .error hab
          · next hlong => exact .ok (hab.append (Nat.le_of_not_lt hlong) content)
    · rw [if_neg hword]
      exact .error hab

/-- Counting an allocation moves nothing. -/
theorem blind_allocateCollectable {size : Nat} {content : Content} :
    Blind (allocateCollectable size content) := by
  have hcount : Blind (modify fun a : Arena => { a with collectable := a.collectable + 1 }) := by
    intro a b hab
    refine .ok ⟨?_, ?_, hab.outlines, hab.freed, hab.length, hab.limit, ?_, hab.saves⟩
    · exact ⟨hab.placed.region_le, hab.placed.inside, hab.placed.disjoint⟩
    · exact ⟨hab.placed'.region_le, hab.placed'.inside, hab.placed'.disjoint⟩
    · simp only
      rw [hab.collectable]
  exact blind_allocate.bind fun h => hcount.bind fun _ => .pure h

end Arena
end BankedMemory
