import BankedMemory.Proofs.Stack.Layout
import Mathlib.Logic.Function.Basic

/-!
# Where old contents are

The records of a level say where to find what an entity held when the level was opened: in the copy
of its first record, or where it was if there is none. `origin` looks it up, and the records of all
levels from one on, `since`, give what an entity held when that one was opened. `shown` is what an
exchange of storage carries along, the bytes and the mark.
-/

namespace BankedMemory

namespace Arena

variable {a b : Arena} {h k : Handle} {x : Cell} {i : Nat} {o : Object}

/-- The bytes and the mark of a live entity. -/
def shown (a : Arena) (h : Handle) : Option (List UInt8 × Mark) :=
  (a.cell h).map fun x => (x.bytes, x.mark)

/-- The entity holds an object in slot `i`, as it was stored. -/
def Shows (a : Arena) (h : Handle) (i : Nat) (o : Object) : Prop :=
  ∃ x, a.cell h = some x ∧ x.HasSlot i ∧ x.slot i = o.encode

/-- The level an entity is stamped with; 0 if there is no such entity. -/
def stamp (a : Arena) (h : Handle) : Nat :=
  match a.cell h with
  | some x => x.mark.topLevel.toNat
  | none => 0

theorem shown_congr (hc : b.cell k = a.cell h) : b.shown k = a.shown h := by
  unfold shown; rw [hc]

theorem Shows.of_shown (hs : a.Shows h i o) (he : b.shown k = a.shown h) : b.Shows k i o := by
  obtain ⟨x, hx, hi, ho⟩ := hs
  unfold shown at he
  rw [hx, Option.map_some, Option.map_eq_some_iff] at he
  obtain ⟨y, hy, heq⟩ := he
  cases y
  cases heq
  exact ⟨_, hy, hi, ho⟩

theorem Shows.readSlot (hsound : a.Sound) (hs : a.Shows h i o) : a.readSlot h i = .ok o := by
  obtain ⟨x, hx, hi, ho⟩ := hs
  exact readSlot_of_slot hsound hx hi ho

theorem stamp_of_cell (hc : a.cell h = some x) : a.stamp h = x.mark.topLevel.toNat := by
  unfold stamp; rw [hc]

theorem stamp_of_none (hc : a.cell h = none) : a.stamp h = 0 := by
  unfold stamp; rw [hc]

theorem stamp_of_shown (he : b.shown k = a.shown h) : b.stamp k = a.stamp h := by
  unfold shown at he
  unfold stamp
  cases hx : a.cell h with
  | none =>
    rw [hx, Option.map_none, Option.map_eq_none_iff] at he
    rw [he]
  | some x =>
    rw [hx, Option.map_some, Option.map_eq_some_iff] at he
    obtain ⟨y, hy, heq⟩ := he
    rw [hy]
    cases y
    cases heq
    rfl

end Arena

/-! ## Looking up a copy -/

/-- Where the contents are that an entity had before the records were made. -/
def origin (records : List Record) (h : Handle) : Handle :=
  match records.find? (·.source == h) with
  | some r => r.copy
  | none => h

section Origin

variable {L M : List Record} {r : Record} {h : Handle}

theorem origin_nil : origin [] h = h := rfl

theorem origin_singleton : origin [r] h = if r.source = h then r.copy else h := by
  unfold origin
  rw [List.find?_singleton]
  by_cases he : r.source = h
  · rw [if_pos (by simpa using he), if_pos he]
  · rw [if_neg (by simpa using he), if_neg he]

theorem origin_of_not_source (hr : ∀ r ∈ L, r.source ≠ h) : origin L h = h := by
  have hnone : L.find? (·.source == h) = none := List.find?_eq_none.mpr fun r hm => by
    simpa using hr r hm
  unfold origin; rw [hnone]

/-- A recorded entity has its contents in the copy of one of its records. -/
theorem origin_of_source (hr : r ∈ L) (hs : r.source = h) :
    ∃ q ∈ L, q.source = h ∧ origin L h = q.copy := by
  unfold origin
  cases hfind : L.find? (·.source == h) with
  | none =>
    have := List.find?_eq_none.mp hfind r hr
    exact absurd (by simpa using hs) this
  | some q =>
    exact ⟨q, List.mem_of_find?_eq_some hfind, by simpa using List.find?_some hfind, rfl⟩

theorem origin_cases (L : List Record) (h : Handle) :
    ((∀ r ∈ L, r.source ≠ h) ∧ origin L h = h) ∨ ∃ r ∈ L, r.source = h ∧ origin L h = r.copy := by
  by_cases hr : ∃ r ∈ L, r.source = h
  · obtain ⟨r, hm, hs⟩ := hr
    exact .inr (origin_of_source hm hs)
  · have hr' : ∀ r ∈ L, r.source ≠ h := fun r hm hs => hr ⟨r, hm, hs⟩
    exact .inl ⟨hr', origin_of_not_source hr'⟩

/-- Later records say where the contents went from where earlier records left them. A copy is never
recorded itself. -/
theorem origin_append (hcopy : ∀ r ∈ L, ∀ q ∈ M, q.source ≠ r.copy) :
    origin (L ++ M) h = origin M (origin L h) := by
  rcases origin_cases L h with ⟨hnot, hself⟩ | ⟨r, hr, hs, hcp⟩
  · have hnone : L.find? (·.source == h) = none := List.find?_eq_none.mpr fun r hm => by
      simpa using hnot r hm
    rw [hself]
    unfold origin
    rw [List.find?_append, hnone, Option.none_or]
  · rw [hcp, origin_of_not_source (hcopy r hr)]
    unfold origin at hcp ⊢
    rw [List.find?_append]
    cases hfind : L.find? (·.source == h) with
    | none =>
      have := List.find?_eq_none.mp hfind r hr
      exact absurd (by simpa using hs) this
    | some q =>
      rw [hfind] at hcp
      rw [Option.some_or]
      exact hcp

end Origin

/-! ## The records of several levels -/

/-- The records of the levels from `k` on, up to level `n`. -/
def since (log : Nat → List Record) (k : Nat) : Nat → List Record
  | 0 => []
  | n + 1 => if k ≤ n then since log k n ++ log n else []

section Since

variable {log log' : Nat → List Record} {k n : Nat} {r : Record}

theorem since_succ (hk : k ≤ n) : since log k (n + 1) = since log k n ++ log n := by
  rw [since, if_pos hk]

theorem since_eq_nil (hk : n ≤ k) : since log k n = [] := by
  cases n with
  | zero => rfl
  | succ n => rw [since, if_neg (by omega)]

theorem mem_since : r ∈ since log k n ↔ ∃ j, k ≤ j ∧ j < n ∧ r ∈ log j := by
  induction n with
  | zero => simp [since]
  | succ n ih =>
    by_cases hk : k ≤ n
    · rw [since_succ hk, List.mem_append, ih]
      constructor
      · rintro (⟨j, hkj, hjn, hr⟩ | hr)
        · exact ⟨j, hkj, by omega, hr⟩
        · exact ⟨n, hk, by omega, hr⟩
      · rintro ⟨j, hkj, hjn, hr⟩
        rcases Nat.lt_or_ge j n with hlt | hge
        · exact .inl ⟨j, hkj, hlt, hr⟩
        · obtain rfl : j = n := by omega
          exact .inr hr
    · rw [since_eq_nil (by omega)]
      refine ⟨fun hr => absurd hr List.not_mem_nil, ?_⟩
      rintro ⟨j, hkj, hjn, -⟩
      omega

/-- The levels from `k` on have an entity where it is, or in one of their copies. -/
theorem origin_since_cases (log : Nat → List Record) (k n : Nat) (h : Handle) :
    origin (since log k n) h = h ∨
      ∃ j, ∃ r ∈ log j, r.source = h ∧ origin (since log k n) h = r.copy := by
  rcases origin_cases (since log k n) h with ⟨-, hself⟩ | ⟨r, hr, hs, hcopy⟩
  · exact .inl hself
  · obtain ⟨j, -, -, hr⟩ := mem_since.mp hr
    exact .inr ⟨j, r, hr, hs, hcopy⟩

theorem since_congr (hlog : ∀ j < n, log' j = log j) : since log' k n = since log k n := by
  induction n with
  | zero => rfl
  | succ n ih =>
    rw [since, since, ih fun j hj => hlog j (by omega), hlog n (by omega)]

/-- One more record in the last level is the last record of all. -/
theorem since_record (hk : k ≤ n) :
    since (Function.update log n (log n ++ [r])) k (n + 1) = since log k (n + 1) ++ [r] := by
  rw [since_succ hk, since_succ hk, Function.update_self, List.append_assoc, since_congr]
  intro j hj
  rw [Function.update_of_ne (by omega)]

end Since

end BankedMemory
