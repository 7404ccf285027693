import BankedMemory.Proofs.Arena.Calls
import BankedMemory.Proofs.Entity.Fields

/-!
# Lowering the top levels

An arena lowers the top levels of all its live entities at once, through the packed marks. On the
fields it takes a minimum and nothing else happens, so lowering twice is lowering once, to the less
of the two levels. `mark_acts_as_fields` says both, of a mark and of an arena.
-/

namespace BankedMemory

namespace Arena

/-- The top level of every live entity is lowered to `level` at most, which changed `n` of them, and
nothing else has happened. -/
structure Lowered (level : UInt32) (a : Arena) (n : Nat) (b : Arena) : Prop where
  live : ∀ h e, a.entry h = .ok e → ∃ mark, b.entry h = .ok { e with mark } ∧
    mark.fields = { e.mark.fields with topLevel := min e.mark.topLevel level }
  free : ∀ (i : Nat) (e : Entry), a.table[i]? = some e → e.kind = .free → b.table[i]? = some e
  size : b.table.size = a.table.size
  rest : b = { a with table := b.table }
  count : n = (a.table.toList.zip b.table.toList).countP fun (e, f) =>
    decide (f.mark.topLevel < e.mark.topLevel)

variable {a : Arena} {h : Handle} {e : Entry} {k l level : UInt32} {m : Mark}

theorem fields_lowerMark (level : UInt32) (m : Mark) :
    (lowerMark level m).fields = { m.fields with topLevel := min m.topLevel level } := by
  have hmax : m.topLevel.toNat ≤ Mark.maxLevel.toNat := m.topLevel_le
  unfold lowerMark
  split
  · next hlt =>
    have hlt' : level.toNat < m.topLevel.toNat := hlt
    have hmin : min m.topLevel level = level := by
      apply UInt32.toNat_inj.mp
      rw [UInt32.toNat_min]
      omega
    have hfits : level ≤ Mark.maxLevel := by
      show level.toNat ≤ Mark.maxLevel.toNat
      omega
    rw [hmin, m.fields_withTopLevel hfits]
  · next hle =>
    have hle' : ¬level.toNat < m.topLevel.toNat := hle
    have hmin : min m.topLevel level = m.topLevel := by
      apply UInt32.toNat_inj.mp
      rw [UInt32.toNat_min]
      omega
    rw [hmin]
    rfl

theorem topLevel_lowerMark (level : UInt32) (m : Mark) :
    (lowerMark level m).topLevel = min m.topLevel level :=
  congrArg Mark.Fields.topLevel (fields_lowerMark level m)

theorem lowerMark_lowerMark (k l : UInt32) (m : Mark) :
    lowerMark l (lowerMark k m) = lowerMark (min k l) m := by
  have hmin : min (min m.topLevel k) l = min m.topLevel (min k l) := by
    apply UInt32.toNat_inj.mp
    simp only [UInt32.toNat_min, Nat.min_assoc]
  apply Mark.fields_injective
  rw [fields_lowerMark, fields_lowerMark, fields_lowerMark, topLevel_lowerMark, hmin]

theorem lowerRow_of_free (level : UInt32) (hk : e.kind = .free) : lowerRow level e = e := by
  have hfree : e.isFree = true := by simp [Entry.isFree, hk]
  unfold lowerRow
  rw [hfree]
  rfl

theorem lowerRow_lowerRow (k l : UInt32) (e : Entry) :
    lowerRow l (lowerRow k e) = lowerRow (min k l) e := by
  by_cases hk : e.kind = .free
  · rw [lowerRow_of_free k hk, lowerRow_of_free l hk, lowerRow_of_free _ hk]
  · have hk' : (lowerRow k e).kind ≠ .free := (lowerRow_place k e).2.2 ▸ hk
    rw [lowerRow_of_live l hk', lowerRow_of_live k hk, lowerRow_of_live _ hk]
    simp only [lowerMark_lowerMark]

/-- A row is lowered if it is live and above the level. -/
theorem topLevel_lowerRow_lt (level : UInt32) (e : Entry) :
    (lowerRow level e).mark.topLevel < e.mark.topLevel ↔
      level < e.mark.topLevel ∧ e.isFree = false := by
  by_cases hk : e.kind = .free
  · rw [lowerRow_of_free level hk]
    simp [Entry.isFree, hk]
  · have hfree : e.isFree = false := by simpa [Entry.isFree] using hk
    rw [lowerRow_of_live level hk, hfree]
    show (lowerMark level e.mark).topLevel < e.mark.topLevel ↔ _
    rw [topLevel_lowerMark, UInt32.lt_iff_toNat_lt, UInt32.lt_iff_toNat_lt, UInt32.toNat_min]
    simp only [and_true]
    omega

theorem count_lowered (level : UInt32) (rows : List Entry) :
    (rows.filter (!·.isFree)).countP (fun e => decide (level < e.mark.topLevel)) =
      (rows.zip (rows.map (lowerRow level))).countP fun (e, f) =>
        decide (f.mark.topLevel < e.mark.topLevel) := by
  induction rows with
  | nil => rfl
  | cons e rows ih =>
    rw [List.map_cons, List.zip_cons_cons, List.countP_cons, ← ih, List.filter_cons]
    have hlt := topLevel_lowerRow_lt level e
    cases hfree : e.isFree with
    | true =>
      rw [hfree] at hlt
      simp [hlt]
    | false =>
      rw [hfree] at hlt
      simp [hlt, List.countP_cons]

theorem lowered (a : Arena) (level : UInt32) :
    ∃ n b, lowerTopLevels level a = .ok n b ∧ Lowered level a n b := by
  have hrow : ∀ {i : Nat} {e : Entry}, a.table[i]? = some e →
      (a.table.map (lowerRow level))[i]? = some (lowerRow level e) := fun hi => by
    rw [Array.getElem?_map, hi, Option.map_some]
  refine ⟨_, _, rfl, fun h e he => ?_, fun i e hi hk => ?_, Array.size_map .., rfl, ?_⟩
  · obtain ⟨hi, hk⟩ := entry_eq_ok_iff.mp he
    refine ⟨lowerMark level e.mark, entry_eq_ok_iff.mpr ⟨?_, hk⟩, fields_lowerMark level e.mark⟩
    exact (hrow hi).trans (congrArg some (lowerRow_of_live level hk))
  · exact (hrow hi).trans (congrArg some (lowerRow_of_free level hk))
  · rw [Array.toList_map]
    exact count_lowered level a.table.toList

theorem lowerTopLevels_lowerTopLevels (a : Arena) (k l : UInt32) :
    (lowerTopLevels l).after ((lowerTopLevels k).after a) = (lowerTopLevels (min k l)).after a := by
  have htwice : (a.table.map (lowerRow k)).map (lowerRow l) = a.table.map (lowerRow (min k l)) := by
    rw [Array.map_map]
    exact congrArg (Array.map · a.table) (funext (lowerRow_lowerRow k l))
  show ({ a with table := (a.table.map (lowerRow k)).map (lowerRow l) } : Arena) = _
  rw [htwice]
  rfl

end Arena

/-- A mark reads in each field what was last written there, or what it was made with. An update
changes its field alone; of two for one field the later is kept, two for different ones may change
places. So lowering the top levels of an arena takes the minimum for each live entity, counts those
it lowered, and doing it twice is doing it once with the less of the two levels. -/
theorem mark_acts_as_fields :
    (∀ (level : UInt32) (us : List Mark.Update) (m : Mark), Mark.Built level us m →
      m.isMarked = (us.findSome? (·.marked?)).getD false ∧ m.refcount = 0 ∧ m.localLevel = level ∧
        m.topLevel = (us.findSome? (·.topLevel?)).getD level) ∧
    (∀ (m : Mark) (u : Mark.Update), u.Fits → (m.update u).fields = m.fields.update u) ∧
    (∀ (m : Mark) (u v : Mark.Update), u.Fits → v.Fits →
      (u.SameField v → (m.update u).update v = m.update v) ∧
        (¬u.SameField v → (m.update u).update v = (m.update v).update u)) ∧
    ∀ (a : Arena) (k l : UInt32),
      (∃ n b, Arena.lowerTopLevels k a = .ok n b ∧ Arena.Lowered k a n b) ∧
        (Arena.lowerTopLevels l).after ((Arena.lowerTopLevels k).after a) =
          (Arena.lowerTopLevels (min k l)).after a := by
  refine ⟨fun level us m built => ?_, fun m u => m.fields_update, fun m u v hu hv => ?_,
    fun a k l => ⟨a.lowered k, a.lowerTopLevels_lowerTopLevels k l⟩⟩
  · obtain ⟨hmarked, hcount, hlocal, htop⟩ := Mark.Fields.mk.inj built.fields
    exact ⟨hmarked, hcount, hlocal, htop⟩
  · exact ⟨m.update_update_of_same hu hv, m.update_update_comm hu hv⟩

/-- A mark made at level 3 is marked and gets the highest level there is. An entity has it when the
levels are lowered to 2. -/
theorem mark_acts_as_fields_highest :
    let m := ((Mark.ofLevel 3).update (.marked true)).update (.topLevel 0xFFF)
    let a := (Arena.Call.setMark 1 m).run.after
      ((Arena.Call.allocate 4 .array).run.after (.empty 1024))
    Mark.Built 3 [.topLevel 0xFFF, .marked true] m ∧
      m.isMarked = true ∧ m.refcount = 0 ∧ m.localLevel = 3 ∧ m.topLevel = 0xFFF ∧
      (m.update (.topLevel 7)).fields = { m.fields with topLevel := 7 } ∧
      (m.update (.topLevel 7)).update (.topLevel 5) = m.update (.topLevel 5) ∧
      (m.update (.topLevel 7)).update (.marked false) =
        (m.update (.marked false)).update (.topLevel 7) ∧
      ∃ b e, (Arena.lowerTopLevels 2).after a = b ∧ b.entry 1 = .ok e ∧
        e.mark.fields = ⟨true, 0, 3, 2⟩ := by
  intro m a
  obtain ⟨hreads, hfields, horder, hlowers⟩ := mark_acts_as_fields
  have built : Mark.Built 3 [.topLevel 0xFFF, .marked true] m :=
    ((Mark.Built.ofLevel (by decide)).update (u := .marked true) trivial).update
      (u := .topLevel 0xFFF) (by show (0xFFF : UInt32) ≤ Mark.maxLevel; decide)
  obtain ⟨hmarked, hcount, hlocal, htop⟩ := hreads 3 _ m built
  have hseven : Mark.Update.Fits (.topLevel 7) := by show (7 : UInt32) ≤ Mark.maxLevel; decide
  have hfive : Mark.Update.Fits (.topLevel 5) := by show (5 : UInt32) ≤ Mark.maxLevel; decide
  obtain ⟨⟨n, b, hrun, hlowered⟩, -⟩ := hlowers a 2 2
  have live : a.entry 1 = .ok ⟨0, 4, m, .used .array⟩ := by decide +kernel
  obtain ⟨mark, hentry, hmark⟩ := hlowered.live 1 _ live
  refine ⟨built, hmarked, hcount, hlocal, htop, hfields m _ hseven,
    (horder m _ _ hseven hfive).1 trivial,
    (horder m (.topLevel 7) (.marked false) hseven trivial).2 id,
    b, _, ArenaM.after_of_ok hrun, hentry, ?_⟩
  have hmade : m.fields = ⟨true, 0, 3, 0xFFF⟩ := by decide
  rw [hmark, htop, hmade]
  decide

end BankedMemory
