import BankedMemory.Proofs.Checkpoint.Arrays
import BankedMemory.Proofs.Context.Sessions

/-!
# Journals

A client of a context makes arrays in either bank, takes windows out of them, gives up rights and
stores through whatever it has at hand. A `Journal` notes down which arrays were made, what was
stored where and which bank was restored, and `Journal.latest` finds in the notes what a slot should
hold. `Told` says that the arrays of one bank show that; each note of the bank keeps it so.
-/

namespace BankedMemory

/-- What a call did to arrays. -/
inductive Note where
  | made (bank : Bank) (ent : Handle)
  | stored (bank : Bank) (ent : Handle) (slot : Nat) (o : Object)
  | restored (bank : Bank)
deriving DecidableEq, Repr

def Note.bank : Note → Bank
  | made bank _ | stored bank _ _ _ | restored bank => bank

/-- Where a client of a context is now, and what it did. -/
structure Journal where
  context : Context
  /-- The arrays it made and what it took out of them, the latest first. -/
  arrays : List Object
  /-- The latest note first. -/
  notes : List Note

namespace Journal

/-- The object stored last in a slot since the array was made; null, if there is none. -/
def latest (bank : Bank) (ent : Handle) (slot : Nat) : List Note → Object
  | [] => .null
  | .made b e :: notes => if b = bank ∧ e = ent then .null else latest bank ent slot notes
  | .stored b e j o :: notes =>
    if b = bank ∧ e = ent ∧ j = slot then o else latest bank ent slot notes
  | .restored _ :: notes => latest bank ent slot notes

/-- The bank was not restored since the array was made. -/
def Unrestored (bank : Bank) (ent : Handle) : List Note → Prop
  | [] => True
  | .made b e :: notes => b = bank ∧ e = ent ∨ Unrestored bank ent notes
  | .stored _ _ _ _ :: notes => Unrestored bank ent notes
  | .restored b :: notes => b ≠ bank ∧ Unrestored bank ent notes

def start (config : Config) : Journal := ⟨.ofConfig config, [], []⟩

/-- What is kept and noted of a call that succeeded. -/
def enter (s : Journal) (c : Context) : Context.Call → Reply → Journal
  | .newArray _, .object (.composite .array v) =>
    ⟨c, .composite .array v :: s.arrays, .made v.bank v.ent :: s.notes⟩
  | .arrayPut (.composite .array v) i o, _ =>
    ⟨c, s.arrays, .stored v.bank v.ent (v.offset.toNat + i.toUInt32.toNat) o :: s.notes⟩
  | .onArena bank .restore, _ => ⟨c, s.arrays, .restored bank :: s.notes⟩
  | _, _ => ⟨c, s.arrays, s.notes⟩

/-- The journal after one more call, whether it succeeds or fails. -/
def step (s : Journal) (call : Context.Call) : Journal :=
  match call.run s.context with
  | .error f c => ⟨s.context.afterFault f c, s.arrays, s.notes⟩
  | .ok reply c => s.enter c call reply

/-- The calls a client may make: on the arrays it has at hand, with any object to be stored, and
saves and restores in either bank. -/
def Allows (s : Journal) : Context.Call → Prop
  | .setMode _ | .setPermissive _ | .newArray _ | .bankUsage _ | .accept _ _ _ _ => True
  | .arrayPut array _ _ | .arrayGet array _ => array ∈ s.arrays
  | .onArena _ .save | .onArena _ .restore | .onArena _ .depth | .onArena _ .usage => True
  | .onArena _ _ | .newUnbankedArray _ => False

/-- The journals of a client with a context of a given configuration. -/
inductive Run (config : Config) : Journal → Prop where
  | start : Run config (start config)
  | call {s : Journal} {call : Context.Call} (run : Run config s) (allowed : s.Allows call) :
      Run config (s.step call)
  | narrow {s : Journal} {o q : Object} {offset size : Int32} (run : Run config s)
      (got : o ∈ s.arrays) (narrowed : o.narrow offset size = .ok q) :
      Run config { s with arrays := q :: s.arrays }
  | restrict {s : Journal} {o q : Object} {access : Access} (run : Run config s)
      (got : o ∈ s.arrays) (restricted : o.restrict access = .ok q) :
      Run config { s with arrays := q :: s.arrays }

end Journal

variable {bank : Bank} {notes : List Note} {note : Note} {c d : Client} {o : Object} {v w : View}
  {ent : Handle} {j : Nat} {b : Arena}

/-! ## What the notes say of an arena -/

namespace Journal

/-- What is noted of another bank does not matter. -/
theorem latest_cons_ne (hne : note.bank ≠ bank) :
    latest bank ent j (note :: notes) = latest bank ent j notes := by
  cases note with
  | made b e => exact if_neg fun heq => hne heq.1
  | stored b e k o => exact if_neg fun heq => hne heq.1
  | restored b => rfl

theorem unrestored_cons_ne (hne : note.bank ≠ bank) :
    Unrestored bank ent (note :: notes) ↔ Unrestored bank ent notes := by
  cases note with
  | made b e => exact or_iff_right fun heq => hne heq.1
  | stored b e k o => exact Iff.rfl
  | restored b => exact and_iff_right hne

/-- The client's arrays in the bank show what the notes say. -/
def Told (notes : List Note) (bank : Bank) (c : Client) : Prop :=
  ∀ v ∈ c.arrays, ∀ j < v.size.toNat, Unrestored bank v.ent notes →
    c.arena.Shows v.ent j (latest bank v.ent j notes)

namespace Told

theorem cons_ne (ht : Told notes bank c) (hne : note.bank ≠ bank) :
    Told (note :: notes) bank c := fun v hv j hj hnot => by
  rw [latest_cons_ne hne]
  exact ht v hv j hj ((unrestored_cons_ne hne).mp hnot)

/-- A restore of the bank leaves nothing to be told of its arrays. -/
theorem restored : Told (.restored bank :: notes) bank c := fun _ _ _ _ hnot =>
  absurd rfl hnot.1

theorem kept (ht : Told notes bank c) (harrays : d.arrays = c.arrays)
    (hkept : c.ArraysKept d.arena) : Told notes bank d := fun v hv j hj hnot => by
  rw [harrays] at hv
  exact hkept _ (Client.mem_entities hv (size_ne_zero hj)) j _ (ht v hv j hj hnot)

theorem stored (ht : Told notes bank c) (harrays : d.arrays = c.arrays)
    (hstored : c.Stored ent j o d.arena) :
    Told (.stored bank ent j o :: notes) bank d := fun v hv k hk hnot => by
  rw [harrays] at hv
  show d.arena.Shows v.ent k (if bank = bank ∧ ent = v.ent ∧ j = k then o else latest bank v.ent k notes)
  by_cases hhere : ent = v.ent ∧ j = k
  · obtain ⟨rfl, rfl⟩ := hhere
    rw [if_pos ⟨rfl, rfl, rfl⟩]
    exact hstored.here
  · rw [if_neg fun heq => hhere heq.2]
    exact hstored.elsewhere _ (Client.mem_entities hv (size_ne_zero hk)) k _
      (fun hent hkj => hhere ⟨hent.symm, hkj.symm⟩) (ht v hv k hk hnot)

/-- A new array is all null, and no other has its entity. -/
theorem made (ht : Told notes bank c) (harrays : d.arrays = v :: c.arrays)
    (hkept : c.ArraysKept d.arena) (hnull : ∀ k < v.size.toNat, d.arena.Shows v.ent k .null)
    (hfresh : ∀ w ∈ c.arrays, w.size ≠ 0 → w.ent ≠ v.ent) :
    Told (.made bank v.ent :: notes) bank d := fun w hw k hk hnot => by
  rw [harrays] at hw
  show d.arena.Shows w.ent k (if bank = bank ∧ v.ent = w.ent then .null else latest bank w.ent k notes)
  rcases List.mem_cons.mp hw with rfl | hw
  · rw [if_pos ⟨rfl, rfl⟩]
    exact hnull k hk
  · have hne := hfresh w hw (size_ne_zero hk)
    rw [if_neg fun heq => hne heq.2.symm]
    have hbefore : Unrestored bank w.ent notes := hnot.resolve_left fun heq => hne heq.2.symm
    exact hkept _ (Client.mem_entities hw (size_ne_zero hk)) k _ (ht w hw k hk hbefore)

end Told

end Journal

/-- The entity of a new array is none of the other arrays'. -/
theorem Account.fresh {terms : Terms} {past : List Client} {arrays : List View} {own : List Stack}
    {l : Ledger} {log : Nat → List Record} (hA : Account terms ⟨⟨b, v :: arrays, own⟩, past⟩ l log)
    (hw : w ∈ arrays) (hsize : w.size ≠ 0) : w.ent ≠ v.ent := by
  have hmem : w.ent ∈ (Client.mk b arrays own).entities := Client.mem_entities hw hsize
  have hheld := hA.array
  by_cases hnew : v.size = 0
  · have hroot : v.ent = 0 := (hA.root v List.mem_cons_self).2 hnew
    rw [Client.entities_cons_empty (a := b) hnew] at hheld
    rw [hroot]
    exact hA.describes.ne_zero (hheld ▸ hmem)
  · rw [Client.entities_cons (a := b) hnew] at hheld
    have hnodup := hA.describes.nodup .array
    rw [hheld] at hnodup
    rintro heq
    exact (List.nodup_cons.mp hnodup).1 (heq ▸ hmem)

end BankedMemory
