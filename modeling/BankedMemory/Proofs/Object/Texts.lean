import BankedMemory.Object.Text

/-!
# Texts stay on one line

A listing has a line for each value only as long as no value's text breaks the line. Every text is
put together from fixed words, signs and digits, the shortest decimal of a real included, and none
of these is a line break.
-/

namespace BankedMemory

/-- There is no line break in the text. -/
def OneLine (s : String) : Prop := '\n' ∉ s.toList

instance (s : String) : Decidable (OneLine s) := inferInstanceAs (Decidable (_ ∉ _))

namespace OneLine

variable {s t : String} {l : List Char}

theorem append (hs : OneLine s) (ht : OneLine t) : OneLine (s ++ t) := by
  unfold OneLine
  rw [String.toList_append, List.mem_append]
  exact not_or.mpr ⟨hs, ht⟩

theorem of_digits (h : ∀ c ∈ l, c.isDigit = true) : OneLine (String.ofList l) := by
  unfold OneLine
  rw [String.toList_ofList]
  intro hmem
  cases h _ hmem

theorem toString_nat (n : Nat) : OneLine (toString n) :=
  of_digits fun _ hc => Nat.isDigit_of_mem_toDigits (by decide) (by decide) hc

theorem toString_int (i : Int) : OneLine (toString i) := by
  cases i with
  | ofNat n => exact toString_nat n
  | negSucc n => exact append (by decide) (toString_nat (n + 1))

end OneLine

namespace Decimal

variable {d : Decimal}

theorem isDigit_of_mem_chars {c : Char} (hc : c ∈ d.chars) : c.isDigit = true := by
  unfold chars at hc
  rw [show toString d.digits = Nat.repr d.digits from rfl, Nat.toList_repr] at hc
  exact Nat.isDigit_of_mem_toDigits (by decide) (by decide) hc

theorem isDigit_of_mem_zeros {c : Char} {n : Nat} (hc : c ∈ List.replicate n '0') :
    c.isDigit = true := by
  rw [List.eq_of_mem_replicate hc]
  rfl

theorem oneLine_positional (d : Decimal) : OneLine d.positional := by
  unfold positional
  simp only
  split
  · refine .append (.of_digits fun c hc => ?_) (by decide)
    exact (List.mem_append.mp hc).elim isDigit_of_mem_chars isDigit_of_mem_zeros
  · split
    · refine .append (.append (.of_digits fun c hc => ?_) (by decide)) (.of_digits fun c hc => ?_)
      · exact isDigit_of_mem_chars (List.mem_of_mem_take hc)
      · exact isDigit_of_mem_chars (List.mem_of_mem_drop hc)
    · refine .append (by decide) (.of_digits fun c hc => ?_)
      exact (List.mem_append.mp hc).elim isDigit_of_mem_zeros isDigit_of_mem_chars

theorem oneLine_scientific (d : Decimal) : OneLine d.scientific := by
  have hfirst : OneLine (String.ofList (d.chars.take 1)) :=
    .of_digits fun c hc => isDigit_of_mem_chars (List.mem_of_mem_take hc)
  have hrest : OneLine ("." ++ String.ofList (d.chars.drop 1)) :=
    .append (by decide) (.of_digits fun c hc => isDigit_of_mem_chars (List.mem_of_mem_drop hc))
  unfold scientific
  refine .append (.append (.append hfirst ?_) (by decide)) (.toString_int _)
  split
  · decide
  · exact hrest

theorem oneLine_text (d : Decimal) : OneLine d.text := by
  unfold text
  split
  · exact d.oneLine_positional
  · exact d.oneLine_scientific

end Decimal

theorem Single.oneLine_text (x : Single) : OneLine x.text := by
  unfold text
  split
  · decide
  · refine .append ?_ ?_
    · split <;> decide
    · split
      · decide
      · split
        · decide
        · exact x.magnitude.shortest.oneLine_text

theorem Shape.oneLine_name (shape : Shape) : OneLine shape.name := by
  cases shape <;> decide

theorem View.oneLine_text (v : View) : OneLine v.text := by
  refine .append (.append (.append (.append (.toString_nat _) ?_) (.toString_nat _)) ?_)
    (.toString_nat _) <;> decide

/-- Whatever an object is, its text has no line break. -/
theorem Object.oneLine_text (o : Object) : OneLine o.text := by
  cases o with
  | boolean b => cases b <;> decide
  | integer i => exact .toString_int _
  | real r => exact r.oneLine_text
  | composite shape v =>
    refine .append (.append (.append (.append ?_ shape.oneLine_name) ?_) v.oneLine_text) ?_ <;>
      decide
  | save s => exact .append (.append (by decide) (.toString_nat _)) (by decide)
  | record r =>
    refine .append (.append (.append (.append ?_ (.toString_nat _)) ?_) (.toString_nat _)) ?_ <;>
      decide
  | _ => decide

end BankedMemory
