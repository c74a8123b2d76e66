import RWave.Str

/-!
# Filter patterns

`filter.rs`: comma-separated, case-insensitive patterns. One without a separator is matched against
a signal's leaf name, one with a separator against its whole path; a pattern without wildcards is a
substring (the whole name in exact mode), one with wildcards an anchored glob.
-/

namespace RWave.Filter

/-- Hierarchy separators. -/
def separators : List Char := ['.', '/']

/-- `contains(SEPARATORS)` and `split(SEPARATORS)` test for one of these. -/
def isSeparator (c : Char) : Bool := separators.contains c

def isWildcard (c : Char) : Bool := c == '*' || c == '?'

/-- Maximum length of a single filter pattern. -/
def maxFilterPatternLen : Nat := 256

/-- Maximum number of wildcard characters in one pattern. -/
def maxFilterWildcards : Nat := 16

/-- How a wildcard-free pattern matches its haystack. -/
inductive MatchMode where
  | substring
  | exact
  deriving DecidableEq, Repr

/-- Which string a pattern is matched against. -/
inductive Domain where
  | path
  | leaf
  deriving DecidableEq, Repr

inductive GlobTok where
  | star
  | any
  | lit (s : String)
  deriving DecidableEq, Repr

inductive PatKind where
  | substr (s : String)
  | glob (toks : List GlobTok)
  deriving DecidableEq, Repr

structure Pat where
  domain : Domain
  kind : PatKind
  deriving DecidableEq, Repr

/-- A set of compiled patterns; an empty one matches nothing. -/
structure Filters where
  pats : List Pat
  deriving DecidableEq, Repr

/-! ## Globs -/

/-- The loop of `collapse_stars`. -/
def collapseFrom (prevStar : Bool) : List Char → List Char
  | [] => []
  | c :: cs =>
    if c = '*' then
      if prevStar then collapseFrom true cs else '*' :: collapseFrom true cs
    else c :: collapseFrom false cs

/-- `collapse_stars`. -/
def collapseStars (s : String) : String := .ofList (collapseFrom false s.toList)

/-- The pending literal as a token, if there is one. -/
def flushLit (lit : List Char) : List GlobTok := if lit.isEmpty then [] else [.lit (.ofList lit)]

/-- The loop of `compile_glob`; `lit` is the pending literal. -/
def compileFrom (lit : List Char) : List Char → List GlobTok
  | [] => flushLit lit
  | c :: cs =>
    if c = '*' then flushLit lit ++ .star :: compileFrom [] cs
    else if c = '?' then flushLit lit ++ .any :: compileFrom [] cs
    else compileFrom (lit ++ [c]) cs

/-- `compile_glob`. -/
def compileGlob (pat : String) : List GlobTok := compileFrom [] pat.toList

/-- `glob_rec`, on the tokens and the haystack that are left. -/
def globRec : List GlobTok → List Char → Bool
  | [], hay => hay.isEmpty
  | .star :: toks, hay => (List.range (hay.length + 1)).any fun skip => globRec toks (hay.drop skip)
  | .any :: toks, hay =>
    match hay with
    | [] => false
    | _ :: hay => globRec toks hay
  | .lit s :: toks, hay => s.toList.isPrefixOf hay && globRec toks (hay.drop s.toList.length)

/-- `glob_match`. -/
def globMatch (toks : List GlobTok) (hay : String) : Bool := globRec toks hay.toList

/-! ## Filters -/

/-- One pattern of `Filters::parse_mode`, not blank and already trimmed. -/
def parsePat (host : Host) (mode : MatchMode) (pat : String) : Except String Pat :=
  if Str.len pat > maxFilterPatternLen then
    .error ("filter pattern too long; max length is " ++ toString maxFilterPatternLen)
  else
    let collapsed := collapseStars pat
    if collapsed.toList.countP isWildcard > maxFilterWildcards then
      .error ("too many wildcard characters in filter pattern; max is " ++
        toString maxFilterWildcards)
    else
      let lower := host.toLowercase collapsed
      .ok
        { domain := if Str.containsChar isSeparator lower then .path else .leaf
          kind :=
            if mode = .exact ∨ Str.containsChar isWildcard lower then .glob (compileGlob lower)
            else .substr lower }

/-- `Filters::parse_mode`. -/
def Filters.parseMode (host : Host) (rawPatterns : List String) (mode : MatchMode) :
    Except String Filters := do
  let pats := (rawPatterns.map Str.trim).filter fun pat => !Str.isEmpty pat
  return ⟨← pats.mapM (parsePat host mode)⟩

/-- `Filters::parse`. -/
def Filters.parse (host : Host) (rawPatterns : List String) : Except String Filters :=
  Filters.parseMode host rawPatterns .substring

/-- `Filters::parse_csv_mode`. -/
def Filters.parseCsvMode (host : Host) (value : String) (mode : MatchMode) : Except String Filters :=
  Filters.parseMode host (Str.split (· == ',') value) mode

/-- One pattern of `Filters::matches_lower`. -/
def Pat.matches (pathLower leafLower : String) (p : Pat) : Bool :=
  let hay :=
    match p.domain with
    | .path => pathLower
    | .leaf => leafLower
  match p.kind with
  | .substr s => Str.contains s hay
  | .glob toks => globMatch toks hay

/-- `Filters::matches_lower`. -/
def Filters.matchesLower (f : Filters) (pathLower leafLower : String) : Bool :=
  f.pats.any (Pat.matches pathLower leafLower)

/-- `Filters::matches_path_leaf`. -/
def Filters.matchesPathLeaf (host : Host) (f : Filters) (path leaf : String) : Bool :=
  f.matchesLower (host.toLowercase path) (host.toLowercase leaf)

end RWave.Filter
