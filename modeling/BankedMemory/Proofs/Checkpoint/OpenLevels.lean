import BankedMemory.Proofs.Checkpoint.Account
import BankedMemory.Stack.Listing

/-!
# The open levels

What the save stack and the stacks of records hold, as anyone can read it from the arena, and that
it is what the ledger says.
-/

namespace BankedMemory

/-- A save level with the records made in it, the earliest first. -/
structure OpenLevel where
  level : SaveLevel
  records : List Record

/-- The levels with one more record in the latest of them, if there is one. -/
def OpenLevel.record (levels : List OpenLevel) (r : Record) : List OpenLevel :=
  match levels.getLast? with
  | none => []
  | some latest => levels.dropLast ++ [{ latest with records := latest.records ++ [r] }]

theorem OpenLevel.record_concat (levels : List OpenLevel) (latest : OpenLevel) (r : Record) :
    record (levels ++ [latest]) r = levels ++ [{ latest with records := latest.records ++ [r] }] := by
  simp [record]

/-- The open levels as the arena's own stacks have them, the outermost first. -/
structure Arena.Keeps (a : Arena) (levels : List OpenLevel) : Prop where
  depth : ∃ n, a.depth = .ok n ∧ n.toNat = levels.length
  level : levels ≠ [] → a.saveStack.toList a = .ok (levels.map (.save ·.level))
  record : ∀ v ∈ levels, (Stack.mk v.level.records).toList a = .ok (v.records.map .record)

namespace Arena

variable {a : Arena} {v w : OpenLevel} {L M : List OpenLevel}

/-- The records a level has in an arena are those on its stack. -/
def Holds (a : Arena) (v : OpenLevel) : Prop :=
  (Stack.mk v.level.records).toList a = .ok (v.records.map .record)

theorem Holds.unique (hv : a.Holds v) (hw : a.Holds w) (hlevel : w.level = v.level) : w = v := by
  obtain ⟨level, records⟩ := v
  obtain ⟨level', records'⟩ := w
  obtain rfl : level' = level := hlevel
  have hsame := hw.symm.trans hv
  have hrecords : records' = records :=
    List.map_injective_iff.mpr (fun _ _ => Object.record.inj) (Except.ok.inj hsame)
  rw [hrecords]

theorem eq_of_levels (hL : ∀ v ∈ L, a.Holds v) (hM : ∀ v ∈ M, a.Holds v)
    (hlevels : M.map (Object.save ·.level) = L.map (Object.save ·.level)) : M = L := by
  induction L generalizing M with
  | nil => exact List.map_eq_nil_iff.mp hlevels
  | cons v L ih =>
    cases M with
    | nil => cases hlevels
    | cons w M =>
      rw [List.map_cons, List.map_cons, List.cons.injEq] at hlevels
      have hhead := (hL v List.mem_cons_self).unique (hM w List.mem_cons_self)
        (Object.save.inj hlevels.1)
      rw [hhead, ih (fun u hu => hL u (List.mem_cons_of_mem _ hu))
        (fun u hu => hM u (List.mem_cons_of_mem _ hu)) hlevels.2]

theorem Keeps.length_eq (hL : a.Keeps L) (hM : a.Keeps M) : M.length = L.length := by
  obtain ⟨n, hn, hlen⟩ := hL.depth
  obtain ⟨m, hm, hlen'⟩ := hM.depth
  rw [hn] at hm
  cases hm
  exact hlen'.symm.trans hlen

/-- An arena keeps its levels in one way only. -/
theorem Keeps.unique (hL : a.Keeps L) (hM : a.Keeps M) : M = L := by
  have hlen := hL.length_eq hM
  rcases eq_or_ne L [] with rfl | hne
  · exact List.length_eq_zero_iff.mp hlen
  · have hne' : M ≠ [] := fun hnil => by
      rw [hnil] at hlen
      exact hne (List.length_eq_zero_iff.mp hlen.symm)
    have hlevels := (hM.level hne').symm.trans (hL.level hne)
    exact eq_of_levels hL.record hM.record (Except.ok.inj hlevels)

end Arena

variable {h : History} {l : Ledger} {log : Nat → List Record} {k : Nat}

namespace Ledger

/-- Level `k` of a ledger. -/
def openLevel (l : Ledger) (log : Nat → List Record) (k : Nat) : OpenLevel :=
  ⟨⟨UInt32.ofNat (k + 1), (l.held (.records k)).headD 0⟩, log k⟩

def openLevels (l : Ledger) (log : Nat → List Record) (n : Nat) : List OpenLevel :=
  (List.range n).map (l.openLevel log)

theorem mem_openLevels {n : Nat} {v : OpenLevel} :
    v ∈ l.openLevels log n ↔ ∃ k < n, l.openLevel log k = v := by
  simp [openLevels, List.mem_map]

theorem length_openLevels (n : Nat) : (l.openLevels log n).length = n := by
  simp [openLevels]

theorem openLevels_succ (n : Nat) :
    l.openLevels log (n + 1) = l.openLevels log n ++ [l.openLevel log n] := by
  simp [openLevels, List.range_succ]

theorem getLast?_openLevels (n : Nat) :
    (l.openLevels log (n + 1)).getLast? = some (l.openLevel log n) := by
  rw [openLevels_succ, List.getLast?_concat]

end Ledger

namespace Holdings

theorem toList_saves (hh : Holdings base h l log) (hopen : 0 < h.past.length) :
    h.now.arena.saveStack.toList h.now.arena = .ok ((List.range h.past.length).map l.level) := by
  have hd := hh.saves_head (hh.saves_ne_nil hopen)
  have hl := hh.describes.laid_of_head (o := .saves) trivial hd
  rw [hl.toList_eq hh.describes.sound hd, hh.levels]

theorem toList_records (hh : Holdings base h l log) (hk : k < h.past.length) :
    (Stack.mk (l.openLevel log k).level.records).toList h.now.arena =
      .ok ((log k).map .record) := by
  have hd := hh.records_head hk
  have hl := hh.describes.laid_of_head (o := .records k) (s := ⟨(l.openLevel log k).level.records⟩)
    trivial hd
  rw [← (hh.opened k hk).2]
  exact hl.toList_eq hh.describes.sound hd

theorem keeps (hh : Holdings base h l log) :
    h.now.arena.Keeps (l.openLevels log h.past.length) where
  depth := ⟨_, hh.depth_eq, by rw [hh.toNat_depth, Ledger.length_openLevels]⟩
  level hne := by
    have hopen : 0 < h.past.length := by
      have := List.length_pos_iff.mpr hne
      rwa [Ledger.length_openLevels] at this
    rw [hh.toList_saves hopen, Ledger.openLevels, List.map_map]
    rfl
  record v hv := by
    obtain ⟨k, hk, rfl⟩ := Ledger.mem_openLevels.mp hv
    exact hh.toList_records hk

end Holdings

end BankedMemory
