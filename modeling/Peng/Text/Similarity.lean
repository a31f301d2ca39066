/-!
# Similar words

How much alike two words are, to guess what was meant by a mistyped one. Letters agree when they
are equal and stand about as far into their words; the similarity is the mean of three shares:
of the first word that agrees with the second, of the second that agrees with the first, and of
the agreeing letters that also come in the same order.
-/

namespace Peng

/-- The letters of a word that agree with letters of `other`, each with the index of the letter
it agrees with. A letter, the `i`-th of its word, takes the first letter of `other` that is at
most `reach` away and not `taken` yet. -/
def agreements (other : List Char) (reach i : Nat) (taken : List Nat) :
    List Char → List (Char × Nat)
  | [] => []
  | c :: cs =>
    let fits (j : Nat) : Bool :=
      i ≤ j + reach && j ≤ i + reach && other[j]? == some c && !taken.contains j
    match (List.range other.length).find? fits with
    | some j => (c, j) :: agreements other reach (i + 1) (j :: taken) cs
    | none => agreements other reach (i + 1) taken cs

/-- How far apart agreeing letters may stand. -/
def agreementReach (a b : List Char) : Nat :=
  max a.length b.length / 2 - 1

/-- The similarity of two words, from zero to one. -/
def similarity (a b : List Char) : Float :=
  let agreeing := agreements b (agreementReach a b) 0 [] a
  let inFirst := agreeing.map (·.1)
  let inSecond := (List.range b.length).filterMap fun j =>
    if agreeing.any (·.2 = j) then b[j]? else none
  let displaced := ((inFirst.zip inSecond).countP fun (c, d) => c ≠ d) / 2
  let share (n m : Nat) : Float := Float.ofNat n / Float.ofNat m
  if a = [] ∧ b = [] then 1
  else if agreeing = [] then 0
  else
    (share agreeing.length a.length + share agreeing.length b.length
      + share (agreeing.length - displaced) agreeing.length) / 3

end Peng
