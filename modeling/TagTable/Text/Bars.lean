/-!
# Bars

Numbers as horizontal bars of block characters, drawn in eighths of a character.

* `bar`: one number on the scale of the largest;
* `barLines`: the bins of a histogram, one per line.
-/

namespace TagTable

/-- The block characters of one to seven eighths. -/
def partBlocks : List Char := ['▏', '▎', '▍', '▌', '▋', '▊', '▉']

/-- A bar for `count` in a scale where `largest` has sixty full blocks, up to the next eighth. -/
def bar (count largest : Nat) : String :=
  let eighths := (count * 480 + (largest - 1)) / largest
  let part := if eighths % 8 = 0 then [] else (partBlocks[eighths % 8 - 1]?).toList
  String.ofList (List.replicate (eighths / 8) '█' ++ part)

/-- A number in at least three places. -/
def padThree (n : Nat) : String :=
  let digits := toString n
  String.ofList (List.replicate (3 - digits.length) ' ') ++ digits

/-- The bins of a histogram of `total` entries by probe length as lines of text. -/
def barLines (total : Nat) (bins : List Nat) : List String :=
  let largest := bins.foldl max 0
  if largest = 0 then ["probe histogram: empty"]
  else
    s!"probe histogram ({total} entries):" ::
      bins.mapIdx fun length count => s!"{padThree length} | {bar count largest} ({count})"

end TagTable
