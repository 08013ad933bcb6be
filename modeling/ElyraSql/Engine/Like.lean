import ElyraSql.Engine.Value
import ElyraSql.Library.Wildcards

/-!
# LIKE

Text, pattern and escape character are folded first, and the folded pattern is read into tokens:
under the default collation every character that folds to the folded escape character escapes.
-/

namespace ElyraSql.Engine

open Wildcards

abbrev LikeTok := Token Char

/-- `fold_like_char`; `wide` is the fold of a character that is not ASCII. -/
def foldLikeChar (wide : Char → Char) (c : Char) : Char :=
  if isAscii c then asciiLower c else wide c

/-- The token of a character that is not escaped. -/
def likeTok (c : Char) : LikeTok := if c = '%' then .any else if c = '_' then .one else .lit c

/-- The loop that reads the pattern. An escape character at its end stands for itself. -/
def likeTokens (esc : Option Char) : List Char → List LikeTok
  | [] => []
  | [c] => [likeTok c]
  | c :: d :: cs =>
    if some c = esc then .lit d :: likeTokens esc cs else likeTok c :: likeTokens esc (d :: cs)

/-- `like_eval`, its second loop run for `fuel` rounds. -/
def likeEval (wide : Char → Char) (fuel : Nat) (text pattern : Text)
    (esc : Option Char) (ci : Bool) :
    Option Bool :=
  let fold := if ci then foldLikeChar wide else id
  run fuel ⟨text.map fold, likeTokens (esc.map fold) (pattern.map fold), none⟩

/-- The loop of `like_eval` ends on every text and pattern, and it answers true exactly if the
folded text can be cut into pieces for the tokens of the folded pattern. -/
theorem likeEval_complete (wide : Char → Char) (text pattern : Text)
    (esc : Option Char) (ci : Bool) :
    let fold := if ci then foldLikeChar wide else id
    ∃ n b, (∀ fuel, n ≤ fuel → likeEval wide fuel text pattern esc ci = some b) ∧
      (b = true ↔ Matches (likeTokens (esc.map fold) (pattern.map fold)) (text.map fold)) := by
  intro fold
  exact run_exact _ _

/-- `'xAxB' LIKE '%a_b'` and `'50%' LIKE '5|%' ESCAPE '|'`. -/
example : likeEval id 20 ['x', 'A', 'x', 'B'] ['%', 'a', '_', 'b'] none true = some true ∧
    likeEval id 20 ['5', '0', '%'] ['5', '|', '%'] (some '|') true = some false := by decide

end ElyraSql.Engine
