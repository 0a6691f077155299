import ObjectGraph.Proofs.Sparql.Productions

/-!
# The grammar of update requests

A request is a sequence of operations with semicolons between them, and an operation on
patterns starts with what it deletes or with what it inserts: there is no operation that
starts with `WHERE`.  The printer leaves a template out when it is empty, so an operation
without templates is no operation any more, and the request that holds it is no request,
whatever else is in it (`request_iff`).

What stands between the braces of a template or of a group is left open (`Blocks`): any
reading will do that takes triples for a template, triples, `OPTIONAL` and `FILTER` for a
group, and only tokens whose braces are matched for either.  The expressions behind `FILTER`
are those that the grammar of SPARQL derives, so its groups are such a reading
(`Blocks.derived`); the least one is given, too (`Blocks.least`).

A semicolon that stands in no braces ends an operation.  Cutting the tokens there (`pieces`)
gives back the operations that were written, and the phrases of a request; so each of the
former is one of the latter.
-/

namespace ObjectGraph.Sparql

/-! ## Groups and operations -/

/-- The tokens of a group of triples, groups that may be missing and filters.  Behind `FILTER`
stands a test for existence, or between parentheses an expression that the grammar of SPARQL
derives and that has no such test in it. -/
inductive GroupPhrase : List Token → Prop
  | nil : GroupPhrase []
  | triples {ts us : List Token} (phrase : TriplesPhrase true ts) (rest : GroupPhrase us) :
      GroupPhrase (ts ++ us)
  | optional {ts us : List Token} (group : GroupPhrase ts) (rest : GroupPhrase us) :
      GroupPhrase (.word "OPTIONAL" :: block ts ++ us)
  | filter {ts us : List Token} {e : Expression} (derives : Derives .expression ts)
      (phrase : Phrase (fun _ => []) loosest ts e) (htests : e.testedGroups = [])
      (rest : GroupPhrase us) : GroupPhrase (.word "FILTER" :: parenthesized ts ++ us)
  | exist {ts us : List Token} (group : GroupPhrase ts) (rest : GroupPhrase us) :
      GroupPhrase (.word "FILTER" :: .word "EXISTS" :: block ts ++ us)
  | notExist {ts us : List Token} (group : GroupPhrase ts) (rest : GroupPhrase us) :
      GroupPhrase (.word "FILTER" :: .word "NOT" :: .word "EXISTS" :: block ts ++ us)

/-- What is read as a template and as a group: at least what is written here, and nothing
with an unmatched brace. -/
structure Blocks where
  template : List Token → Prop
  group : List Token → Prop
  template_of_triples : ∀ {ts}, TriplesPhrase false ts → template ts
  group_of_patterns : ∀ {ts}, GroupPhrase ts → group ts
  template_balanced : ∀ {ts}, template ts → Balanced ts
  group_balanced : ∀ {ts}, group ts → Balanced ts

section

variable (blocks : Blocks)

/-- The tokens of an operation on data or on what a group matches. -/
inductive OperationPhrase : List Token → Prop
  | insertData {ts : List Token} (data : blocks.template ts) :
      OperationPhrase (.word "INSERT" :: .word "DATA" :: block ts)
  | deleteData {ts : List Token} (data : blocks.template ts) :
      OperationPhrase (.word "DELETE" :: .word "DATA" :: block ts)
  | deleteWhere {ts : List Token} (pattern : blocks.template ts) :
      OperationPhrase (.word "DELETE" :: .word "WHERE" :: block ts)
  | delete {ts us : List Token} (deleted : blocks.template ts) (group : blocks.group us) :
      OperationPhrase (.word "DELETE" :: block ts ++ .word "WHERE" :: block us)
  | insert {ts us : List Token} (inserted : blocks.template ts) (group : blocks.group us) :
      OperationPhrase (.word "INSERT" :: block ts ++ .word "WHERE" :: block us)
  | exchange {ts us vs : List Token} (deleted : blocks.template ts)
      (inserted : blocks.template us) (group : blocks.group vs) :
      OperationPhrase
        (.word "DELETE" :: block ts ++ .word "INSERT" :: block us ++ .word "WHERE" :: block vs)

/-- The sign between two operations. -/
def semicolon : Token := .word ";"

/-- The tokens of a request; a semicolon may also end it. -/
inductive RequestPhrase : List Token → Prop
  | nil : RequestPhrase []
  | last {ts : List Token} (operation : OperationPhrase blocks ts) : RequestPhrase ts
  | cons {ts us : List Token} (operation : OperationPhrase blocks ts)
      (rest : RequestPhrase us) : RequestPhrase (ts ++ semicolon :: us)

end

/-! ## Readings -/

/-- There is no brace in a selection. -/
theorem Selection.balanced {ts : List Token} (h : Selection ts) : Balanced ts := by
  cases h with
  | all => simp [Balanced.nil]
  | vars v vs =>
      induction vs generalizing v with
      | nil => simp [Balanced.nil]
      | cons w rest ih => simpa using ih w

theorem balanced_cut {word : String} (hleft : word ≠ "\x7b") (hright : word ≠ "\x7d")
    (n : Option Nat) : Balanced (cut word n) := by
  cases n with
  | none => exact .nil
  | some n =>
      have hdigits : n.repr ≠ "\x7b" ∧ n.repr ≠ "\x7d" :=
        ⟨repr_ne (by decide) n [], repr_ne (by decide) n []⟩
      simp [cut, hleft, hright, hdigits, Balanced.nil]

theorem balanced_ordered {keys : List Token} (h : Balanced keys) : Balanced (ordered keys) := by
  unfold ordered
  split
  · exact .nil
  · simpa using h

/-- The grammar matches its braces. -/
theorem Derives.balanced {p : Production} {ts : List Token} (h : Derives p ts) :
    Balanced ts := by
  induction h with
  | or _ _ ih ih' | and _ _ ih ih' => simp [ih, ih']
  | @comparison op _ _ _ _ _ ih ih' => cases op <;> simp [BinaryOp.sign, ih, ih']
  | member _ _ ih ih' | notMember _ _ ih ih' => simp [ih, ih']
  | sum hsign _ _ ih ih' | product hsign _ _ ih ih' =>
      simp only [List.mem_cons, List.not_mem_nil, or_false] at hsign
      rcases hsign with rfl | rfl <;> simp [ih, ih']
  | unary hsign _ ih =>
      simp only [List.mem_cons, List.not_mem_nil, or_false] at hsign
      rcases hsign with rfl | rfl | rfl <;> simp [ih]
  | tighter _ ih | constraint _ ih | lastArgument _ ih | patterns _ ih => exact ih
  | var | iri => simp [Balanced.nil]
  | literal l => exact l.balanced
  | parenthesized _ ih => exact ih.parenthesized
  | bound v => simp [Balanced.nil]
  | @call f _ _ _ _ ih => cases f <;> simp [Builtin.name, ih]
  | function i _ ih => simp [ih]
  | exist _ ih | notExist _ ih | optional _ ih => simpa using ih.block
  | noArgument | noPattern | noKey => exact .nil
  | argument _ _ ih ih' => simp [ih, ih']
  | filter _ ih => simpa using ih
  | bind v _ ih =>
      have hnamed : Balanced [.word "AS", .variable v] := by simp [Balanced.nil]
      simpa using (ih.append hnamed).parenthesized
  | nested _ ih => exact ih.block
  | service endpoint _ ih | silentService endpoint _ ih => simpa using ih.block
  | triples phrase _ ih => exact phrase.balanced.append ih
  | cons _ _ ih ih' => exact ih.append ih'
  | @select _ us _ distinct limit offset selection _ _ ih ih' =>
      have hbody : Balanced (.word "WHERE" :: block us) := by simpa using ih.block
      have hlimit := balanced_cut (by decide : "LIMIT" ≠ "\x7b") (by decide) limit
      have hoffset := balanced_cut (by decide : "OFFSET" ≠ "\x7b") (by decide) offset
      have hall := (((selection.balanced.append hbody).append
        (balanced_ordered ih')).append hlimit).append hoffset
      cases distinct <;> simpa using hall
  | key descending _ _ ih ih' => cases descending <;> simp [ih, ih']

/-- Groups of triples and filters are groups of SPARQL. -/
theorem GroupPhrase.derives {ts : List Token} (h : GroupPhrase ts) : Derives .patterns ts := by
  induction h with
  | nil => exact .noPattern
  | triples phrase _ ih => exact .triples phrase ih
  | optional _ _ ih ih' => exact .cons (.optional ih.patterns) ih'
  | filter derives _ _ _ ih => exact .cons (.filter (.parenthesized derives)) ih
  | exist _ _ ih ih' => exact .cons (.filter (.exist ih.patterns)) ih'
  | notExist _ _ ih ih' => exact .cons (.filter (.notExist ih.patterns)) ih'

/-- The groups that the grammar of SPARQL derives, and triples for templates. -/
def Blocks.derived : Blocks where
  template := TriplesPhrase false
  group := Derives .group
  template_of_triples h := h
  group_of_patterns h := h.derives.patterns
  template_balanced h := h.balanced
  group_balanced h := h.balanced

/-- The least reading of templates and groups. -/
def Blocks.least : Blocks where
  template := TriplesPhrase false
  group := GroupPhrase
  template_of_triples h := h
  group_of_patterns h := h
  template_balanced h := h.balanced
  group_balanced h := h.derives.balanced

/-! ## Cutting at semicolons -/

/-- The stretches of tokens between semicolons, of which those in braces do not count; some
braces are open at the start. -/
def pieces (depth : Nat) : List Token → List (List Token)
  | [] => [[]]
  | t :: rest =>
    if t = semicolon ∧ depth = 0 then [] :: pieces 0 rest
    else
      let depth :=
        if t = leftBrace then depth + 1 else if t = rightBrace then depth - 1 else depth
      (pieces depth rest).modifyHead (t :: ·)

/-- Tokens that no semicolon cuts, whatever comes behind. -/
def Uncut (ts : List Token) : Prop :=
  ∀ rest, pieces 0 (ts ++ rest) = (pieces 0 rest).modifyHead (ts ++ ·)

/-- In braces nothing is cut. -/
theorem pieces_append_of_balanced {ts : List Token} (h : Balanced ts) (depth : Nat)
    (rest : List Token) :
    pieces (depth + 1) (ts ++ rest) = (pieces (depth + 1) rest).modifyHead (ts ++ ·) := by
  induction h generalizing depth rest with
  | nil => exact (congrFun List.modifyHead_id _).symm
  | token hleft hright _ ih => simp [pieces, hleft, hright, ih, Function.comp_def]
  | braces _ _ ih ih' =>
      have hne : rightBrace ≠ leftBrace := by decide
      simp [pieces, hne, ih, ih', Function.comp_def]

namespace Uncut

variable {ts us : List Token}

theorem nil : Uncut [] := fun _ => (congrFun List.modifyHead_id _).symm

/-- Uncut tokens may stand behind each other. -/
theorem append (h : Uncut ts) (h' : Uncut us) : Uncut (ts ++ us) := by
  intro rest
  rw [List.append_assoc, h, h']
  simp [Function.comp_def]

/-- A word that is neither a semicolon nor a brace does not cut. -/
theorem word {w : String} (hsemicolon : .word w ≠ semicolon) (hleft : .word w ≠ leftBrace)
    (hright : .word w ≠ rightBrace) : Uncut [.word w] := by
  intro rest
  simp [pieces, hsemicolon, hleft, hright]

/-- Semicolons within braces do not cut. -/
theorem block (h : Balanced ts) : Uncut (block ts) := by
  intro rest
  have hinner := pieces_append_of_balanced h 0 (rightBrace :: rest)
  have hends : leftBrace ≠ semicolon ∧ rightBrace ≠ semicolon ∧ rightBrace ≠ leftBrace := by
    decide
  simp [Sparql.block, pieces, hinner, hends, Function.comp_def]

end Uncut

variable {blocks : Blocks} {ts : List Token}

/-- An operation is in one piece. -/
theorem OperationPhrase.uncut (h : OperationPhrase blocks ts) : Uncut ts := by
  have hdelete : Uncut [.word "DELETE"] := .word (by decide) (by decide) (by decide)
  have hinsert : Uncut [.word "INSERT"] := .word (by decide) (by decide) (by decide)
  have hdata : Uncut [.word "DATA"] := .word (by decide) (by decide) (by decide)
  have hwhere : Uncut [.word "WHERE"] := .word (by decide) (by decide) (by decide)
  cases h with
  | insertData data =>
      exact hinsert.append (hdata.append (.block (blocks.template_balanced data)))
  | deleteData data =>
      exact hdelete.append (hdata.append (.block (blocks.template_balanced data)))
  | deleteWhere pattern =>
      exact hdelete.append (hwhere.append (.block (blocks.template_balanced pattern)))
  | delete deleted group =>
      have hgroup := hwhere.append (.block (blocks.group_balanced group))
      exact (hdelete.append (.block (blocks.template_balanced deleted))).append hgroup
  | insert inserted group =>
      have hgroup := hwhere.append (.block (blocks.group_balanced group))
      exact (hinsert.append (.block (blocks.template_balanced inserted))).append hgroup
  | exchange deleted inserted group =>
      have hgroup := hwhere.append (.block (blocks.group_balanced group))
      have hinserted := hinsert.append (.block (blocks.template_balanced inserted))
      have hdeleted := hdelete.append (.block (blocks.template_balanced deleted))
      simpa using (hdeleted.append hinserted).append hgroup

/-- An operation starts with what it does. -/
theorem OperationPhrase.starts (h : OperationPhrase blocks ts) :
    ts.head? = some (.word "DELETE") ∨ ts.head? = some (.word "INSERT") := by
  cases h with
  | insertData | insert => exact .inr rfl
  | deleteData | deleteWhere | delete | exchange => exact .inl rfl

/-- A semicolon ends the first piece. -/
theorem pieces_semicolon (rest : List Token) :
    pieces 0 (semicolon :: rest) = [] :: pieces 0 rest := by
  simp [pieces]

/-- What is in one piece is the first one in front of a semicolon. -/
theorem Uncut.pieces_cons (h : Uncut ts) (rest : List Token) :
    pieces 0 (ts ++ semicolon :: rest) = ts :: pieces 0 rest := by
  rw [h, pieces_semicolon]
  simp

/-- Uncut tokens are one piece. -/
theorem Uncut.pieces_eq (h : Uncut ts) : pieces 0 ts = [ts] := by
  have hall := h []
  simpa [pieces] using hall

/-- The pieces of a request are its operations; behind the last semicolon there may be
nothing. -/
theorem RequestPhrase.pieces (h : RequestPhrase blocks ts) :
    ∀ piece ∈ pieces 0 ts, piece = [] ∨ OperationPhrase blocks piece := by
  induction h with
  | nil => simp [Sparql.pieces]
  | last operation => simp [operation.uncut.pieces_eq, operation]
  | cons operation _ ih =>
      rw [operation.uncut.pieces_cons]
      exact List.forall_mem_cons.mpr ⟨.inr operation, ih⟩

/-- Uncut parts with semicolons between them are the pieces. -/
theorem pieces_intercalate {first : List Token} {parts : List (List Token)}
    (hfirst : Uncut first) (hparts : ∀ part ∈ parts, Uncut part) :
    pieces 0 (List.intercalate [semicolon] (first :: parts)) = first :: parts := by
  induction parts generalizing first with
  | nil => simpa [List.intercalate] using hfirst.pieces_eq
  | cons next rest ih =>
      obtain ⟨hnext, hrest⟩ := List.forall_mem_cons.mp hparts
      rw [List.intercalate_cons_cons, List.append_assoc, List.singleton_append,
        hfirst.pieces_cons, ih hnext hrest]

/-- **A request is made of operations.**  Parts that no semicolon cuts and that are not empty
are a request together if and only if each is an operation. -/
theorem requestPhrase_intercalate {parts : List (List Token)}
    (hparts : ∀ part ∈ parts, Uncut part ∧ part ≠ []) :
    RequestPhrase blocks (List.intercalate [semicolon] parts) ↔
      ∀ part ∈ parts, OperationPhrase blocks part := by
  constructor
  · intro h part hpart
    have hpieces : pieces 0 (List.intercalate [semicolon] parts) = parts := by
      cases parts with
      | nil => cases hpart
      | cons first rest =>
          obtain ⟨hfirst, hrest⟩ := List.forall_mem_cons.mp hparts
          exact pieces_intercalate hfirst.1 fun p hp => (hrest p hp).1
    have hpiece := h.pieces part (hpieces.symm ▸ hpart)
    exact hpiece.resolve_left (hparts part hpart).2
  · intro h
    induction parts with
    | nil => exact .nil
    | cons first rest ih =>
        obtain ⟨hfirst, hrest⟩ := List.forall_mem_cons.mp h
        cases rest with
        | nil => simpa [List.intercalate] using RequestPhrase.last hfirst
        | cons next rest =>
            have hothers := ih (fun p hp => hparts p (List.mem_cons_of_mem _ hp)) hrest
            simpa [List.intercalate_cons_cons] using RequestPhrase.cons hfirst hothers

/-! ## What is printed -/

/-- Phrases of groups may stand behind each other. -/
theorem GroupPhrase.append {us : List Token} (h : GroupPhrase ts) (h' : GroupPhrase us) :
    GroupPhrase (ts ++ us) := by
  induction h with
  | nil => exact h'
  | triples phrase _ ih => simpa using GroupPhrase.triples phrase ih
  | optional group _ _ ih => simpa using GroupPhrase.optional group ih
  | filter derives phrase htests _ ih =>
      simpa using GroupPhrase.filter derives phrase htests ih
  | exist group _ _ ih => simpa using GroupPhrase.exist group ih
  | notExist group _ _ ih => simpa using GroupPhrase.notExist group ih

/-- The patterns of updates: triples, groups that may be missing, comparisons and tests for
existence. -/
inductive Pattern.IsPlain : Pattern → Prop
  | triples (ts : List Triple) : IsPlain (.triples ts)
  | optional {g : List Pattern} (hg : ∀ p ∈ g, p.IsPlain) : IsPlain (.optional g)
  | comparison {e : Expression} (he : e.testedGroups = []) (hgrammatical : e.IsGrammatical) :
      IsPlain (.filter e)
  | exist {g : List Pattern} (hg : ∀ p ∈ g, p.IsPlain) : IsPlain (.filter (.exist g))
  | notExist {g : List Pattern} (hg : ∀ p ∈ g, p.IsPlain) : IsPlain (.filter (.notExist g))

/-- A group is phrased by its patterns. -/
theorem groupPhrase_groupSolid {g : List Pattern} (h : ∀ p ∈ g, GroupPhrase (solid p.tokens)) :
    GroupPhrase (groupSolid g) := by
  induction g with
  | nil => exact .nil
  | cons p rest ih =>
      obtain ⟨hp, hrest⟩ := List.forall_mem_cons.mp h
      rw [groupSolid_cons]
      exact hp.append (ih hrest)

/-- A comparison stands between parentheses. -/
theorem Expression.groupPhrase_filter {e : Expression} (he : e.testedGroups = [])
    (hgrammatical : e.IsGrammatical) : GroupPhrase (solid (Pattern.filter e).tokens) := by
  have hphrase : Phrase (fun _ => []) loosest (solid e.tokens) e := by
    rw [Expression.phrase_iff, e.regroup_eq (by simp [he])]
  have hderives := (Expression.derives_writtenLevel hgrammatical).loosen e.one_le_writtenLevel
  have hfilter := GroupPhrase.filter hderives hphrase he .nil
  cases e with
  | exist g | notExist g => simp [Expression.testedGroups] at he
  | var | literal | iri | binary | not | call => simpa [Pattern.tokens] using hfilter

/-- A plain pattern is phrased. -/
theorem Pattern.IsPlain.groupPhrase {p : Pattern} (h : p.IsPlain) :
    GroupPhrase (solid p.tokens) := by
  induction h with
  | triples ts =>
      have htriples : TriplesPhrase true (ts.flatMap fun t => solid t.tokens) :=
        triplesPhrase fun _ _ _ => rfl
      simpa [Pattern.tokens, List.flatMap_map] using GroupPhrase.triples htriples .nil
  | optional _ ih =>
      have hgroup := GroupPhrase.optional (groupPhrase_groupSolid ih) .nil
      simpa [Pattern.tokens, block, groupSolid] using hgroup
  | comparison he hgrammatical => exact Expression.groupPhrase_filter he hgrammatical
  | exist _ ih =>
      have hgroup := GroupPhrase.exist (groupPhrase_groupSolid ih) .nil
      simpa [Pattern.tokens, block, groupSolid] using hgroup
  | notExist _ ih =>
      have hgroup := GroupPhrase.notExist (groupPhrase_groupSolid ih) .nil
      simpa [Pattern.tokens, block, groupSolid] using hgroup

/-- A template is its triples. -/
theorem solid_templateTokens (ts : List Triple) :
    solid (templateTokens ts) = ts.flatMap fun t => solid t.tokens := by
  induction ts with
  | nil => rfl
  | cons t rest ih =>
      have hrest : solid (rest.flatMap fun t => line t.tokens) =
          rest.flatMap fun t => solid t.tokens := ih
      rw [templateTokens, List.flatMap_cons, solid_append, hrest]
      simp [line]

/-- The lines of a group are its tokens. -/
theorem solid_blockTokens (g : List Pattern) : solid (blockTokens g) = groupSolid g := by
  induction g with
  | nil => rfl
  | cons p rest ih =>
      rw [groupSolid_cons, ← ih]
      cases p with
      | triples ts => simp [blockTokens, solid_templateTokens, Pattern.tokens, List.flatMap_map]
      | optional | filter | bind | group | service | subselect => simp [blockTokens, line]

/-- A block is its keyword and, between braces, its lines. -/
theorem solid_blockOf (keyword lines : List Token) :
    solid (blockOf keyword lines) = solid keyword ++ block (solid lines) := by
  simp [blockOf, block, leftBrace, rightBrace]

/-- A template that is not empty is a clause. -/
theorem solid_clauseTokens (keyword : String) (ts : List Triple) :
    solid (clauseTokens keyword ts) =
      if ts.isEmpty then [] else .word keyword :: block (solid (templateTokens ts)) := by
  unfold clauseTokens
  split
  · rfl
  · simp [solid_blockOf]

/-- There is no brace in a template. -/
theorem balanced_templateTokens (ts : List Triple) : Balanced (solid (templateTokens ts)) := by
  rw [solid_templateTokens]
  induction ts with
  | nil => exact .nil
  | cons t rest ih => exact t.balanced.solid.append ih

namespace Operation

/-- Whether an operation says what it deletes or inserts. -/
def HasTemplate : Operation → Prop
  | .insertData _ => True
  | .modify delete insert _ => delete ≠ [] ∨ insert ≠ []

/-- Templates without paths, and a group of plain patterns. -/
def IsPlain : Operation → Prop
  | .insertData ts => ∀ t ∈ ts, t.predicate.isPath = false
  | .modify delete insert body =>
    (∀ t ∈ delete ++ insert, t.predicate.isPath = false) ∧ ∀ p ∈ body, p.IsPlain

/-- An operation on what a group matches is its clauses and the group. -/
theorem solid_modify (delete insert : List Triple) (body : List Pattern) :
    solid (Operation.modify delete insert body).document =
      solid (clauseTokens "DELETE" delete) ++ solid (clauseTokens "INSERT" insert) ++
        .word "WHERE" :: block (groupSolid body) := by
  simp [document, solid_blockOf, solid_blockTokens]

/-- No semicolon cuts what is written of an operation. -/
theorem uncut_document (op : Operation) : Uncut (solid op.document) := by
  cases op with
  | insertData ts =>
      have hinsert : Uncut [.word "INSERT"] := .word (by decide) (by decide) (by decide)
      have hdata : Uncut [.word "DATA"] := .word (by decide) (by decide) (by decide)
      have hall := hinsert.append (hdata.append (.block (balanced_templateTokens ts)))
      simpa [document, solid_blockOf] using hall
  | modify delete insert body =>
      have hwhere : Uncut [.word "WHERE"] := .word (by decide) (by decide) (by decide)
      have hclause : ∀ keyword ts, Uncut [.word keyword] →
          Uncut (solid (clauseTokens keyword ts)) := by
        intro keyword ts hkeyword
        rw [solid_clauseTokens]
        split
        · exact .nil
        · exact hkeyword.append (.block (balanced_templateTokens ts))
      have hdelete := hclause "DELETE" delete (.word (by decide) (by decide) (by decide))
      have hinsert := hclause "INSERT" insert (.word (by decide) (by decide) (by decide))
      rw [solid_modify]
      exact (hdelete.append hinsert).append (hwhere.append (.block (balanced_groupSolid body)))

/-- No operation is empty. -/
theorem solid_document_ne_nil (op : Operation) : solid op.document ≠ [] := by
  cases op with
  | insertData => simp [document, solid_blockOf]
  | modify => simp [solid_modify]

/-- Without templates an operation starts with its group. -/
theorem hasTemplate_of_operationPhrase {op : Operation}
    (h : OperationPhrase blocks (solid op.document)) : op.HasTemplate := by
  cases op with
  | insertData => trivial
  | modify delete insert body =>
      by_contra hnone
      obtain ⟨rfl, rfl⟩ : delete = [] ∧ insert = [] := by simpa [HasTemplate] using hnone
      have hstarts := h.starts
      simp [solid_modify, clauseTokens] at hstarts

/-- A template that is written is one that is read. -/
theorem template_templateTokens (blocks : Blocks) {ts : List Triple}
    (h : ∀ t ∈ ts, t.predicate.isPath = false) : blocks.template (solid (templateTokens ts)) := by
  rw [solid_templateTokens]
  exact blocks.template_of_triples (triplesPhrase fun t ht hpath => by simp [h t ht] at hpath)

/-- An operation with a template is phrased, if its patterns are plain. -/
theorem operationPhrase_document {op : Operation} (hplain : op.IsPlain) (h : op.HasTemplate) :
    OperationPhrase blocks (solid op.document) := by
  cases op with
  | insertData ts =>
      have hdata := OperationPhrase.insertData (template_templateTokens blocks hplain)
      simpa [document, solid_blockOf] using hdata
  | modify delete insert body =>
      obtain ⟨htemplates, hbody⟩ := hplain
      have hdelete := template_templateTokens blocks fun t ht =>
        htemplates t (List.mem_append_left insert ht)
      have hinsert := template_templateTokens blocks fun t ht =>
        htemplates t (List.mem_append_right delete ht)
      have hgroup : blocks.group (groupSolid body) :=
        blocks.group_of_patterns (groupPhrase_groupSolid fun p hp => (hbody p hp).groupPhrase)
      rw [solid_modify, solid_clauseTokens, solid_clauseTokens]
      cases delete with
      | nil =>
          cases insert with
          | nil => simp [HasTemplate] at h
          | cons t rest => simpa using OperationPhrase.insert hinsert hgroup
      | cons d deleted =>
          cases insert with
          | nil => simpa using OperationPhrase.delete hdelete hgroup
          | cons t rest => simpa using OperationPhrase.exchange hdelete hinsert hgroup

end Operation

/-- The text of a request is one if each of its operations is. -/
theorem requestPhrase_updateDocument {u : Update} :
    RequestPhrase blocks (solid (updateDocument u)) ↔
      ∀ op ∈ u, OperationPhrase blocks (solid op.document) := by
  have hsolid : solid (updateDocument u) =
      List.intercalate [semicolon] (u.map fun op => solid op.document) := by
    rw [updateDocument, solid_intercalate, List.map_map]
    rfl
  have hparts : ∀ part ∈ u.map fun op => solid op.document, Uncut part ∧ part ≠ [] := by
    intro part hpart
    obtain ⟨op, -, rfl⟩ := List.mem_map.mp hpart
    exact ⟨op.uncut_document, op.solid_document_ne_nil⟩
  rw [hsolid, requestPhrase_intercalate hparts, List.forall_mem_map]

/-- Every operation of a request has a template, whatever its patterns are. -/
theorem RequestPhrase.hasTemplate {u : Update}
    (h : RequestPhrase blocks (solid (updateDocument u))) : ∀ op ∈ u, op.HasTemplate :=
  fun op hop => Operation.hasTemplate_of_operationPhrase (requestPhrase_updateDocument.mp h op hop)

/-- **When the text of a request is a request.**  Operations of plain patterns are written as
a request of the grammar if and only if each of them has a template. -/
theorem request_iff {u : Update} (hplain : ∀ op ∈ u, op.IsPlain) :
    RequestPhrase blocks (solid (updateDocument u)) ↔ ∀ op ∈ u, op.HasTemplate := by
  refine ⟨RequestPhrase.hasTemplate, fun h => requestPhrase_updateDocument.mpr ?_⟩
  intro op hop
  exact Operation.operationPhrase_document (hplain op hop) (h op hop)

end ObjectGraph.Sparql
