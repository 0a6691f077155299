import ObjectGraph.Proofs.Sparql.Trees

/-!
# Triples as they are written

A triple has a subject, a verb and an object, and a full stop ends it.  A verb is a variable or
an IRI, and where paths are allowed also a path.  What the printer writes of triples, gaps left
out, are such triples (`triplesPhrase`), whose braces are matched, and the tokens of a group are
those of its patterns one behind the other (`groupSolid_cons`).
-/

namespace ObjectGraph.Sparql

/-! ## The grammar of triples -/

/-- The tokens of the verb of a triple. -/
inductive VerbPhrase (paths : Bool) : List Token → Prop
  | var (v : Var) : VerbPhrase paths [.variable v]
  | iri (i : String) : VerbPhrase paths [.iri i]
  | path {ts : List Token} {p : Path} (hpaths : paths = true)
      (phrase : PathPhrase .tokens false ts p) : VerbPhrase paths ts

/-- The tokens of triples, each ended by a full stop; verbs are paths only where paths are
allowed. -/
inductive TriplesPhrase (paths : Bool) : List Token → Prop
  | nil : TriplesPhrase paths []
  | cons (subject object : Term) {verb ts : List Token} (phrase : VerbPhrase paths verb)
      (rest : TriplesPhrase paths ts) :
      TriplesPhrase paths (subject.tokens ++ verb ++ object.tokens ++ .word "." :: ts)

/-- Tokens between braces. -/
def block (ts : List Token) : List Token :=
  leftBrace :: ts ++ [rightBrace]

/-! ## Braces -/

/-- Braces around balanced tokens are balanced. -/
theorem Balanced.block {ts : List Token} (h : Balanced ts) : Balanced (block ts) :=
  h.braces .nil

/-- There is no brace in the phrase of a path. -/
theorem PathPhrase.balanced {primary : Bool} {ts : List Token} {p : Path}
    (h : PathPhrase .tokens primary ts p) : Balanced ts := by
  induction h with
  | iri i => simp [PathSigns.tokens, Balanced.nil]
  | parenthesized _ ih => exact ih.parenthesized
  | inverse _ ih => simpa [PathSigns.tokens] using ih
  | zeroOrMore _ ih => exact ih.append (by simp [PathSigns.tokens, Balanced.nil])
  | primary _ ih => exact ih

theorem VerbPhrase.balanced {paths : Bool} {ts : List Token} (h : VerbPhrase paths ts) :
    Balanced ts := by
  cases h with
  | var | iri => simp [Balanced.nil]
  | path _ phrase => exact phrase.balanced

/-- There is no brace in the phrase of triples. -/
theorem TriplesPhrase.balanced {paths : Bool} {ts : List Token} (h : TriplesPhrase paths ts) :
    Balanced ts := by
  induction h with
  | nil => exact .nil
  | cons subject object phrase _ ih =>
      have hhead := (subject.balanced.append phrase.balanced).append object.balanced
      exact hhead.append (by simpa using ih)

/-! ## What is printed -/

/-- There is no gap in a path. -/
theorem Path.solid_tokens (p : Path) : solid p.tokens = p.tokens := by
  induction p with
  | iri i => rfl
  | inverse p ih | zeroOrMore p ih =>
      cases hsimple : p.isSimple <;>
        simp [Path.tokens, parenthesizedIf, hsimple, parenthesized, ih]

theorem Term.solid_tokens (t : Term) : solid t.tokens = t.tokens := by
  cases t with
  | literal l => exact l.solid_tokens
  | var | iri | blank => rfl

/-- Whether a predicate is a path. -/
def Predicate.isPath : Predicate → Bool
  | .path _ => true
  | .var _ | .iri _ => false

/-- A predicate is phrased as a verb, and as one without paths if it is none. -/
theorem Predicate.verbPhrase (p : Predicate) {paths : Bool} (h : p.isPath = true → paths = true) :
    VerbPhrase paths (solid p.tokens) := by
  cases p with
  | var v => exact .var v
  | iri i => exact .iri i
  | path p =>
      have hphrase := VerbPhrase.path (h rfl) p.phrase_tokens
      rwa [← p.solid_tokens] at hphrase

/-- Triples are written as such, on lines of their own or on one. -/
theorem triplesPhrase {paths : Bool} {triples : List Triple}
    (h : ∀ t ∈ triples, t.predicate.isPath = true → paths = true) :
    TriplesPhrase paths (triples.flatMap fun t => solid t.tokens) := by
  induction triples with
  | nil => exact .nil
  | cons t rest ih =>
      obtain ⟨ht, hrest⟩ := List.forall_mem_cons.mp h
      have hcons := TriplesPhrase.cons t.subject t.object (t.predicate.verbPhrase ht) (ih hrest)
      simpa [Triple.tokens, Term.solid_tokens] using hcons

/-- A pattern that holds nothing is left out, and has no tokens in any case. -/
theorem groupSolid_cons (p : Pattern) (rest : List Pattern) :
    groupSolid (p :: rest) = solid p.tokens ++ groupSolid rest := by
  unfold groupSolid
  rw [groupTokens]
  split
  next hvoid =>
    have hp : p = .triples [] := by
      unfold Pattern.isVoid at hvoid
      split at hvoid
      · rfl
      · cases hvoid
    subst hp
    rfl
  next => rw [List.flatMap_cons]

end ObjectGraph.Sparql
