import RWave.Filter
import RWave.Misc.Glob
import RWave.Misc.Outcome
import RWave.Model.Mock

/-!
# What a filter pattern matches

The compiled tokens of a pattern match a haystack exactly if the characters of the pattern fit it
as a glob. From this, what `Filters` matches, in the words of its patterns.
-/

namespace RWave

/-- A pattern is found in a text if the text has it as a block. -/
theorem Str.contains_iff (pat s : String) :
    Str.contains pat s = true ↔ pat.toList <:+: s.toList := by
  rw [contains]
  generalize pat.toList = pat
  induction s.toList with
  | nil =>
    rw [splitOnce, List.infix_nil]
    cases pat <;> simp
  | cons c cs ih =>
    rw [splitOnce, List.infix_cons_iff, ← ih]
    by_cases first : pat.isPrefixOf (c :: cs) = true
    · simp [first, List.isPrefixOf_iff_prefix.mp first]
    · simp [first, mt List.isPrefixOf_iff_prefix.mpr first]

namespace Filter

open Misc (GlobItem Fits)

/-- What a character of a pattern stands for. -/
def globItem (c : Char) : GlobItem Char :=
  if c = '*' then .span else if c = '?' then .one else .char c

/-- The items of a pattern. -/
def globItems (pat : String) : List (GlobItem Char) := pat.toList.map globItem

/-- The items a token has consumed. -/
def GlobTok.items : GlobTok → List (GlobItem Char)
  | star => [.span]
  | any => [.one]
  | lit s => s.toList.map .char

@[simp] theorem globItem_star : globItem '*' = .span := rfl

@[simp] theorem globItem_any : globItem '?' = .one := rfl

theorem globItem_char {c : Char} (plain : isWildcard c = false) : globItem c = .char c := by
  simp only [isWildcard, Bool.or_eq_false_iff, beq_eq_false_iff_ne] at plain
  rw [globItem, if_neg plain.1, if_neg plain.2]

theorem map_globItem_char {cs : List Char} (plain : cs.any isWildcard = false) :
    cs.map globItem = cs.map .char := by
  apply List.map_congr_left
  intro c member
  apply globItem_char
  simpa using List.any_eq_false.mp plain c member

/-! ## The matcher -/

/-- The backtracking matcher is sound and complete for the items of its tokens. -/
theorem globRec_iff (toks : List GlobTok) (hay : List Char) :
    globRec toks hay = true ↔ Fits (toks.flatMap GlobTok.items) hay := by
  induction toks generalizing hay with
  | nil => simp [globRec]
  | cons tok toks ih =>
    rw [List.flatMap_cons]
    cases tok with
    | star =>
      simp only [globRec, List.any_eq_true, List.mem_range, ih, GlobTok.items,
        List.singleton_append, Fits.span_iff]
      constructor
      · intro ⟨skip, _, fits⟩
        exact ⟨hay.drop skip, List.drop_suffix skip hay, fits⟩
      · intro ⟨rest, ⟨piece, cut⟩, fits⟩
        have shorter : piece.length ≤ hay.length := by simp [← cut]
        exact ⟨piece.length, by omega, by rwa [← cut, List.drop_left]⟩
    | any =>
      simp only [GlobTok.items, List.singleton_append, Fits.one_iff]
      cases hay with
      | nil => simp [globRec]
      | cons c hay => simp [globRec, ih]
    | lit s =>
      simp only [globRec, GlobTok.items, Fits.chars_append_iff, Bool.and_eq_true, ih,
        List.isPrefixOf_iff_prefix]
      constructor
      · intro ⟨⟨rest, cut⟩, fits⟩
        exact ⟨rest, cut.symm, by rwa [← cut, List.drop_left] at fits⟩
      · intro ⟨rest, cut, fits⟩
        exact ⟨⟨rest, cut.symm⟩, by rwa [cut, List.drop_left]⟩

theorem flushLit_items (lit : List Char) : (flushLit lit).flatMap GlobTok.items = lit.map .char := by
  cases lit <;> simp [flushLit, GlobTok.items]

/-- The tokens of a pattern stand for its characters, behind those still pending. -/
theorem compileFrom_items (lit cs : List Char) :
    (compileFrom lit cs).flatMap GlobTok.items = lit.map .char ++ cs.map globItem := by
  induction cs generalizing lit with
  | nil => simp [compileFrom, flushLit_items]
  | cons c cs ih =>
    rw [compileFrom]
    split
    next star => simp [star, flushLit_items, ih, GlobTok.items]
    next star =>
      split
      next any => simp [any, flushLit_items, ih, GlobTok.items]
      next any =>
        have plain : isWildcard c = false := by simp [isWildcard, star, any]
        simp [ih, globItem_char plain]

theorem compileGlob_items (pat : String) :
    (compileGlob pat).flatMap GlobTok.items = globItems pat := by
  rw [compileGlob, compileFrom_items, globItems, List.map_nil, List.nil_append]

/-- Matching a compiled pattern is fitting its characters. -/
theorem globMatch_iff (pat hay : String) :
    globMatch (compileGlob pat) hay = true ↔ Fits (globItems pat) hay.toList := by
  rw [globMatch, globRec_iff, compileGlob_items]

/-- Dropping the stars that follow a star changes nothing, behind a star or elsewhere. -/
theorem collapseFrom_fits (cs text : List Char) :
    (Fits ((collapseFrom false cs).map globItem) text ↔ Fits (cs.map globItem) text) ∧
      (Fits (.span :: (collapseFrom true cs).map globItem) text ↔
        Fits (.span :: cs.map globItem) text) := by
  induction cs generalizing text with
  | nil => simp [collapseFrom]
  | cons c cs ih =>
    by_cases star : c = '*'
    · simp [star, collapseFrom, Fits.span_span_iff, (ih _).2]
    · simp only [collapseFrom, if_neg star, List.map_cons]
      have rest (text : List Char) :
          Fits (globItem c :: (collapseFrom false cs).map globItem) text ↔
            Fits (globItem c :: cs.map globItem) text :=
        Fits.cons_congr fun text => (ih text).1
      exact ⟨rest text, Fits.cons_congr rest⟩

theorem collapseStars_fits (pat : String) (text : List Char) :
    Fits (globItems (collapseStars pat)) text ↔ Fits (globItems pat) text := by
  simp only [globItems, collapseStars, String.toList_ofList]
  exact (collapseFrom_fits pat.toList text).1

theorem collapseFrom_plain {cs : List Char} (b : Bool) (plain : cs.any isWildcard = false) :
    collapseFrom b cs = cs := by
  induction cs generalizing b with
  | nil => rfl
  | cons c cs ih =>
    simp only [List.any_cons, Bool.or_eq_false_iff] at plain
    have other : c ≠ '*' := by
      intro star
      simp [star, isWildcard] at plain
    rw [collapseFrom, if_neg other, ih false plain.2]

theorem collapseStars_plain {pat : String} (plain : Str.containsChar isWildcard pat = false) :
    collapseStars pat = pat := by
  rw [collapseStars, collapseFrom_plain false plain, String.ofList_toList]

/-! ## Filters -/

/-- The pattern that `parse_mode` compiles for a raw one. -/
def lowered (host : Host) (raw : String) : String := host.toLowercase (collapseStars (Str.trim raw))

/-- The string a pattern is matched against. -/
def haystack (pat path leaf : String) : String :=
  if Str.containsChar isSeparator pat then path else leaf

/-- The glob that a pattern stands for. -/
def asGlob (mode : MatchMode) (pat : String) : String :=
  if mode = .exact ∨ Str.containsChar isWildcard pat then pat else "*" ++ pat ++ "*"

theorem globItems_asGlob_substring {pat : String} (plain : Str.containsChar isWildcard pat = false) :
    globItems ("*" ++ pat ++ "*") = .span :: (pat.toList.map .char ++ [.span]) := by
  simp only [globItems, String.toList_append, List.map_append, map_globItem_char plain]
  rfl

theorem globMatch_plain {pat : String} (hay : String)
    (plain : Str.containsChar isWildcard pat = false) :
    globMatch (compileGlob pat) hay = true ↔ hay = pat := by
  rw [globMatch_iff, globItems, map_globItem_char plain, Fits.chars_iff, String.toList_inj]

/-- What an accepted pattern is compiled to. -/
theorem parsePat_eq {host : Host} {mode : MatchMode} {raw : String} {p : Pat}
    (parsed : parsePat host mode (Str.trim raw) = .ok p) :
    p.domain = (if Str.containsChar isSeparator (lowered host raw) then .path else .leaf) ∧
      p.kind =
        if mode = .exact ∨ Str.containsChar isWildcard (lowered host raw) then
          .glob (compileGlob (lowered host raw))
        else .substr (lowered host raw) := by
  unfold parsePat at parsed
  split at parsed
  next => cases parsed
  next =>
    dsimp only at parsed
    split at parsed
    next => cases parsed
    next =>
      obtain rfl := Except.ok.inj parsed
      exact ⟨rfl, rfl⟩

theorem Pat.matches_substr (d : Domain) (s path leaf : String) :
    Pat.matches path leaf ⟨d, .substr s⟩ = Str.contains s (if d = .path then path else leaf) := by
  cases d <;> rfl

theorem Pat.matches_glob (d : Domain) (toks : List GlobTok) (path leaf : String) :
    Pat.matches path leaf ⟨d, .glob toks⟩ = globMatch toks (if d = .path then path else leaf) := by
  cases d <;> rfl

/-- One compiled pattern matches as the glob it stands for. -/
theorem parsePat_matches {host : Host} {mode : MatchMode} {raw : String} {p : Pat}
    (parsed : parsePat host mode (Str.trim raw) = .ok p) (path leaf : String) :
    p.matches path leaf = globMatch (compileGlob (asGlob mode (lowered host raw)))
      (haystack (lowered host raw) path leaf) := by
  obtain ⟨domain, kind⟩ := parsePat_eq parsed
  obtain ⟨d, k⟩ := p
  dsimp only at domain kind
  have hay : (if d = .path then path else leaf) = haystack (lowered host raw) path leaf := by
    rw [haystack, domain]
    split <;> simp
  rw [kind, asGlob]
  split
  next => rw [Pat.matches_glob, hay]
  next plain =>
    simp only [not_or, Bool.not_eq_true] at plain
    rw [Pat.matches_substr, hay, Bool.eq_iff_iff, Str.contains_iff, globMatch_iff,
      globItems_asGlob_substring plain.2, Fits.infix_iff]

/-- What a set of filters matches: the globs of its patterns that are not blank. -/
theorem Filters.matchesLower_iff {host : Host} {mode : MatchMode} {raws : List String} {f : Filters}
    (accepted : Filters.parseMode host raws mode = .ok f) (path leaf : String) :
    f.matchesLower path leaf = true ↔
      ∃ raw ∈ raws, Str.isEmpty (Str.trim raw) = false ∧
        globMatch (compileGlob (asGlob mode (lowered host raw)))
          (haystack (lowered host raw) path leaf) = true := by
  unfold Filters.parseMode at accepted
  obtain ⟨pats, each, built⟩ := Misc.bind_eq_ok.mp accepted
  obtain rfl := Except.ok.inj built
  rw [Filters.matchesLower, List.any_eq_true, Misc.exists_mem_of_mapM each]
  simp only [List.mem_filter, List.mem_map, Bool.not_eq_true']
  constructor
  · intro ⟨_, ⟨⟨raw, member, trimmed⟩, filled⟩, p, parsed, hit⟩
    subst trimmed
    rw [parsePat_matches parsed] at hit
    exact ⟨raw, member, filled, hit⟩
  · intro ⟨raw, member, filled, hit⟩
    have kept : Str.trim raw ∈ (raws.map Str.trim).filter fun pat => !Str.isEmpty pat := by
      exact List.mem_filter.mpr ⟨List.mem_map_of_mem member, by rw [filled]; rfl⟩
    obtain ⟨p, -, parsed⟩ := Misc.ok_of_mem_of_mapM each kept
    rw [← parsePat_matches parsed] at hit
    exact ⟨Str.trim raw, ⟨⟨raw, member, rfl⟩, filled⟩, p, parsed, hit⟩

/-- One accepted pattern. -/
theorem Filters.matchesLower_single {host : Host} {mode : MatchMode} {raw : String} {f : Filters}
    (filled : Str.isEmpty (Str.trim raw) = false)
    (accepted : Filters.parseMode host [raw] mode = .ok f) (path leaf : String) :
    f.matchesLower path leaf = globMatch (compileGlob (asGlob mode (lowered host raw)))
      (haystack (lowered host raw) path leaf) := by
  rw [Bool.eq_iff_iff, Filters.matchesLower_iff accepted]
  simp [filled]

/-- A pattern in lower case without blanks around it is compiled as it stands. -/
theorem lowered_eq {host : Host} {pat : String} (trimmed : Str.trim pat = pat)
    (lower : host.toLowercase pat = pat) (plain : Str.containsChar isWildcard pat = false) :
    lowered host pat = pat := by
  rw [lowered, trimmed, collapseStars_plain plain, lower]

/-- Matching is fitting a glob, whether or not runs of stars are collapsed, and a filter without
wildcards finds its pattern anywhere, or as the whole haystack in exact mode. -/
theorem glob_semantics (host : Host) :
    (∀ pat hay, globMatch (compileGlob pat) hay = true ↔ Fits (globItems pat) hay.toList) ∧
      (∀ pat hay, globMatch (compileGlob (collapseStars pat)) hay =
        globMatch (compileGlob pat) hay) ∧
      (∀ raw, Str.isEmpty (Str.trim raw) = false →
        Str.containsChar isWildcard (lowered host raw) = false →
        (∀ f, Filters.parseMode host [raw] .substring = .ok f → ∀ path leaf,
          (f.matchesLower path leaf = true ↔
            globMatch (compileGlob ("*" ++ lowered host raw ++ "*"))
              (haystack (lowered host raw) path leaf) = true)) ∧
        ∀ f, Filters.parseMode host [raw] .exact = .ok f → ∀ path leaf,
          (f.matchesLower path leaf = true ↔
            haystack (lowered host raw) path leaf = lowered host raw)) ∧
      ∀ pat, Str.trim pat = pat → host.toLowercase pat = pat →
        Str.containsChar isWildcard pat = false → lowered host pat = pat := by
  refine ⟨globMatch_iff, ?_, ?_, ?_⟩
  · intro pat hay
    rw [Bool.eq_iff_iff, globMatch_iff, globMatch_iff, collapseStars_fits]
  · intro raw filled plain
    constructor
    · intro f accepted path leaf
      rw [Filters.matchesLower_single filled accepted, asGlob, if_neg (by simp [plain])]
    · intro f accepted path leaf
      rw [Filters.matchesLower_single filled accepted, asGlob, if_pos (Or.inl rfl),
        globMatch_plain _ plain]
  · intro pat trimmed lower plain
    exact lowered_eq trimmed lower plain

theorem glob_semantics_data :
    Filters.matchesLower ⟨[⟨.leaf, .substr "data"⟩]⟩ "top.u.rdata_q" "rdata_q" = true ∧
      globMatch (compileGlob "*data*") "rdata_q" = true := by
  have both := ((glob_semantics Model.MockBackend.host).2.2.1 "Data" (by decide) (by decide)).1
    ⟨[⟨.leaf, .substr "data"⟩]⟩ (by decide) "top.u.rdata_q" "rdata_q"
  have found : Filters.matchesLower ⟨[⟨.leaf, .substr "data"⟩]⟩ "top.u.rdata_q" "rdata_q" = true := by
    decide
  exact ⟨found, both.mp found⟩

end Filter

end RWave
