/-!
# Language tags

Which tags are well formed: a primary language with optional extensions,
script, region and variants, a tag for private use, or one of the tags that
were registered before these rules.
-/

namespace SparqlAlgebra.Text

namespace LanguageTag

/-- The tags that are valid by registration, in lower case. -/
def registered : List String :=
  ["art-lojban", "cel-gaulish", "en-gb-oed", "i-ami", "i-bnn", "i-default",
    "i-enochian", "i-hak", "i-klingon", "i-lux", "i-mingo", "i-navajo", "i-pwn",
    "i-tao", "i-tay", "i-tsu", "no-bok", "no-nyn", "sgn-be-fr", "sgn-be-nl",
    "sgn-ch-de", "zh-guoyu", "zh-hakka", "zh-min", "zh-min-nan", "zh-xiang"]

/-- What the subtags read so far allow next. -/
inductive Stage where
  | start
  /-- After a short language and this many language extensions. -/
  | language (extensions : Nat)
  | longLanguage
  | script
  | region
  | variants
  /-- In an extension; `needed` if it has no subtag yet. -/
  | extension (needed : Bool)
  /-- In the part for private use; `needed` if it has no subtag yet. -/
  | privateUse (needed : Bool)

/-- Whether no script, region or variant was read yet. -/
def Stage.beforeScript : Stage → Bool
  | language _ | longLanguage => true
  | _ => false

/-- Whether a region may follow. -/
def Stage.beforeRegion (s : Stage) : Bool :=
  s.beforeScript || s matches script

/-- Whether a variant may follow. -/
def Stage.beforeVariant (s : Stage) : Bool :=
  s.beforeRegion || s matches region || s matches variants

/-- Two letters or three digits. -/
def isRegion (t : List Char) : Bool :=
  (t.length = 2 && t.all Char.isAlpha) || (t.length = 3 && t.all Char.isDigit)

/-- At least five characters, or four if the first one is a digit. -/
def isVariant (t : List Char) : Bool :=
  match t with
  | [] => false
  | c :: _ =>
    (5 ≤ t.length && c.isAlpha) || (4 ≤ t.length && c.isDigit)

/-- The stage after a subtag, or `none` if the subtag is not allowed. -/
def next? (stage : Stage) (t : List Char) : Option Stage :=
  if t.isEmpty || 8 < t.length || !t.all Char.isAlphanum then none
  else
    match stage with
    | .start =>
      if t = ['x'] || t = ['X'] then some (.privateUse true)
      else if t.length < 2 || !t.all Char.isAlpha then none
      else if t.length < 4 then some (.language 0)
      else some .longLanguage
    | .privateUse _ => some (.privateUse false)
    | stage =>
      if t.length = 1 then
        if stage matches .extension true then none
        else if t = ['x'] || t = ['X'] then some (.privateUse true)
        else some (.extension true)
      else if stage matches .extension _ then some (.extension false)
      else if t.length = 3 && t.all Char.isAlpha then
        match stage with
        | .language n => if n < 3 then some (.language (n + 1)) else none
        | _ => none
      else if t.length = 4 && t.all Char.isAlpha && stage.beforeScript then
        some .script
      else if isRegion t && stage.beforeRegion then some .region
      else if isVariant t && stage.beforeVariant then some .variants
      else none

/-- The stage after a list of subtags. -/
def run? : Stage → List (List Char) → Option Stage
  | stage, [] => some stage
  | stage, t :: rest => (next? stage t).bind fun stage => run? stage rest

/-- The subtags of a tag. -/
def subtags : List Char → List (List Char)
  | [] => [[]]
  | c :: rest =>
    match subtags rest with
    | t :: ts => if c = '-' then [] :: t :: ts else (c :: t) :: ts
    | [] => [[c]]

/-- Whether a list of subtags is complete: no extension and no part for private
use is left without a subtag. -/
def isComplete (subtags : List (List Char)) : Bool :=
  match run? .start subtags with
  | none | some (.extension true) | some (.privateUse true) => false
  | some _ => true

end LanguageTag

/-- Whether a language tag is well formed. -/
def isLanguageTag (tag : String) : Bool :=
  LanguageTag.registered.contains
      (String.ofList (tag.toList.map Char.toLower)) ||
    LanguageTag.isComplete (LanguageTag.subtags tag.toList)

end SparqlAlgebra.Text
