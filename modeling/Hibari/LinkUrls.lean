import Hibari.Mentions

/-!
# URLs, as the server reads them

The package `linkpreview` as far as it finds the URLs of a body: `ExtractURLs`, and those of them that
are unfolded (`Candidates`).
-/

namespace LinkUrls

open List

open TextScan Mentions

/-- `MaxLinks`. -/
def MaxLinks : ℕ := 5

/-- The class `[\s\p{Z}\x{feff}]`. -/
def isSpace (c : Char) : Bool :=
  [0x9, 0xA, 0xC, 0xD].contains c.toNat || (0x2000 ≤ c.toNat && c.toNat ≤ 0x200A) ||
    [0x20, 0xA0, 0x1680, 0x2028, 0x2029, 0x202F, 0x205F, 0x3000, 0xFEFF].contains c.toNat

/-- `isWordChar`. -/
def isWordChar (c : Char) : Bool := isAlnum c

/-- `isURLChar`. -/
def isURLChar (c : Char) : Bool :=
  '!' ≤ c && c ≤ '~' && c ≠ '<' && c ≠ '>' && c ≠ backtick

/-- The characters of `urlTrailing`. -/
def isTrailing (c : Char) : Bool := ".,;:!?)]\x7d'\"*_~".toList.contains c

def http : List Char := "http://".toList

def https : List Char := "https://".toList

/-- What is left of a URL after its scheme, which is one of two. -/
def afterScheme (s : List Char) : Option (List Char) :=
  if startsWith https s then some (s.drop https.length)
  else if startsWith http s then some (s.drop http.length)
  else none

/-- `labeledLink`: the URL of a link that has a label, and how long all of it is. -/
def labeledLink (s : List Char) : Option (List Char × ℕ) :=
  match s with
  | '<' :: cs => (afterScheme cs).bind fun rest =>
    let path := rest.takeWhile fun c => !isSpace c && c ≠ '<' && c ≠ '>' && c ≠ backtick && c ≠ '|'
    let url := cs.take (cs.length - rest.length + path.length)
    match rest.drop path.length with
    | '|' :: labelled =>
      let label := labelled.takeWhile fun c => c ≠ '<' && c ≠ '>' && c ≠ backtick && c ≠ '\n'
      if path ≠ [] ∧ label ≠ [] ∧ (labelled.drop label.length).head? = some '>' then
        some (url, 1 + url.length + 1 + label.length + 1)
      else none
    | _ => none
  | _ => none

/-- `strings.TrimPrefix`. -/
def trimPrefix (pattern s : List Char) : List Char :=
  if startsWith pattern s then s.drop pattern.length else s

/-- The URL that a text begins with, if more is left of it than the scheme. -/
def plainURL (s : List Char) : Option (List Char) :=
  let u := (s.takeWhile isURLChar).rdropWhile isTrailing
  match trimPrefix http (trimPrefix https u) with
  | [] => none
  | c :: _ => if c ≠ '/' then some u else none

/-- **The URL at a place** of a body, by what is before and from there on, and how long it is with
what belongs to it. -/
def urlAt (before : Option Char) (s : List Char) : Option (List Char × ℕ) :=
  match s with
  | '<' :: _ => labeledLink s
  | 'h' :: _ =>
    if (startsWith https s ∨ startsWith http s) ∧ !before.any isWordChar then
      (plainURL s).map fun u => (u, u.length)
    else none
  | _ => none

/-- The loop of `ExtractURLs`, at a place of a body. -/
def extractFrom (code : List (ℕ × ℕ)) (pos : ℕ) (before : Option Char) (s : List Char) :
    List (List Char) :=
  match s with
  | [] => []
  | c :: cs =>
    if InRanges code pos then extractFrom code (pos + 1) (some c) cs
    else match urlAt before (c :: cs) with
      | some (u, n) => u :: extractFrom code (pos + n) (c :: cs)[n - 1]? (cs.drop (n - 1))
      | none => extractFrom code (pos + 1) (some c) cs
termination_by s.length

/-- `ExtractURLs`: the URLs of a body, in its order. -/
def ExtractURLs (body : List Char) : List (List Char) := extractFrom (CodeRanges body) 0 none body

/-- What `Candidates` looks at of a URL. -/
structure URL where
  scheme : List Char
  host : List Char
  deriving DecidableEq

section Candidates

-- `url.Parse` and `strings.EqualFold`, and the address of the app
variable (parse : List Char → Option URL) (equalFold : List Char → List Char → Bool)
  (app : Option URL)

/-- `IsAppURL`. -/
def IsAppURL (u : URL) : Bool :=
  app.any fun a => equalFold u.scheme a.scheme && equalFold u.host a.host

/-- The loop of `Candidates`. -/
def candidatesFrom (seen : List (List Char)) : List (List Char) → List (List Char)
  | [] => []
  | raw :: rest =>
    if raw ∈ seen then candidatesFrom seen rest
    else match parse raw with
      | none => candidatesFrom (raw :: seen) rest
      | some u =>
        if u.host = [] then candidatesFrom (raw :: seen) rest
        else if IsAppURL equalFold app u then candidatesFrom (raw :: seen) rest
        else raw :: candidatesFrom (raw :: seen) rest

/-- `Candidates`: the URLs of a body that are unfolded. -/
def Candidates (body : List Char) : List (List Char) :=
  if (ExtractURLs body).length > MaxLinks then []
  else candidatesFrom parse equalFold app [] (ExtractURLs body)

variable {parse equalFold app}

theorem notMem_candidatesFrom {seen : List (List Char)} {raw : List Char} (h : raw ∈ seen)
    (urls : List (List Char)) : raw ∉ candidatesFrom parse equalFold app seen urls := by
  induction urls generalizing seen with
  | nil => exact not_mem_nil
  | cons u _ ih =>
    simp only [candidatesFrom]
    split
    · exact ih h
    · next hnew =>
      have hrest := ih (mem_cons_of_mem u h)
      split
      · exact hrest
      · repeat' split
        · exact hrest
        · exact hrest
        · rw [mem_cons, not_or]
          exact ⟨fun heq => hnew (heq ▸ h), hrest⟩

/-- **Each URL is unfolded once.** -/
theorem nodup_candidatesFrom (seen urls : List (List Char)) :
    (candidatesFrom parse equalFold app seen urls).Nodup := by
  induction urls generalizing seen with
  | nil => exact nodup_nil
  | cons _ rest ih =>
    simp only [candidatesFrom]
    split
    · exact ih seen
    · split
      · exact ih _
      · repeat' split
        · exact ih _
        · exact ih _
        · exact nodup_cons.mpr ⟨notMem_candidatesFrom (.head _) rest, ih _⟩

theorem nodup_candidates (body : List Char) : (Candidates parse equalFold app body).Nodup := by
  simp only [Candidates]
  split
  · exact nodup_nil
  · exact nodup_candidatesFrom _ _

end Candidates

end LinkUrls
