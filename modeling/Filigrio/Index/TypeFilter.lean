import Filigrio.Core.Model
import Filigrio.Lib.SplitOnce

/-!
# Filigrio.Index.TypeFilter

Type edges without noise. The driver keeps a stack of type-parameter frames, with the union
of them beside it, and a stack of variable scopes; the walks push a frame where they enter
a construct and pop it where they leave. What they emit is what lexical scoping says
(`visit_lexical`): a reference becomes an edge unless it names a type parameter of a
construct around it, or a type that is never a project's own.
-/

namespace Filigrio.Index

/-! ### Noise -/

def rustDenylist : List String :=
  ["Result", "Option", "String", "Box", "Rc", "Arc", "Cow", "bool", "u8", "u16", "u32", "u64",
    "u128", "usize", "i8", "i16", "i32", "i64", "i128", "isize", "f32", "f64", "char", "str",
    "Vec", "VecDeque", "LinkedList", "BinaryHeap", "HashMap", "HashSet", "BTreeMap", "BTreeSet",
    "RefCell", "Mutex", "RwLock", "Future", "Stream", "Pin", "Poll", "Waker", "Path", "PathBuf",
    "Duration", "Instant", "SystemTime"]

def pythonDenylist : List String :=
  ["bool", "int", "float", "str", "list", "dict", "tuple", "set", "bytes", "bytearray",
    "complex", "object", "True", "False", "List", "Dict", "Tuple", "Set", "Optional", "Any",
    "Union", "Callable", "Iterable", "Iterator", "Sequence", "Mapping", "MutableMapping",
    "MutableSequence", "Awaitable", "AsyncIterable", "AsyncIterator", "Coroutine", "Generator",
    "AsyncGenerator", "ContextManager", "AsyncContextManager", "Annotated", "ClassVar", "Final",
    "Literal", "Concatenate", "ParamSpec", "TypeVar", "None", "Ellipsis", "Type", "MagicMock",
    "Mock", "AsyncMock", "NonCallableMock", "NonCallableMagicMock", "PropertyMock", "patch",
    "sentinel"]

def typescriptDenylist : List String :=
  ["string", "number", "boolean", "bigint", "symbol", "any", "unknown", "never", "void", "null",
    "undefined", "Array", "ReadonlyArray", "Map", "ReadonlyMap", "Set", "ReadonlySet", "WeakMap",
    "WeakSet", "Promise", "Object", "Record", "Partial", "Required", "Readonly", "Pick", "Omit",
    "Exclude", "Extract", "ReturnType", "Parameters", "InstanceType", "Buffer"]

/-- The types that are never a project's own. Lowering matters for ASCII letters alone. -/
def denylist (language : String) : List String :=
  let language := language.toLower
  if language = "rust" then rustDenylist
  else if language = "python" then pythonDenylist
  else if language = "typescript" ∨ language = "javascript" then typescriptDenylist
  else []

/-- `rsplit("::").next()`. -/
def lastSegment (path : String) : String :=
  match Text.rsplitOnce path "::" with
  | some (_, name) => name
  | none => path

/-- Is the type noise? A type parameter hides a local type, which is never noise. -/
def shouldFilterTypeWithContext (language typeName : String) (localTypes typeParameters :
    Finset String) : Bool :=
  let cleaned := Text.trim typeName
  if cleaned = "" then true
  else if cleaned ∈ typeParameters then true
  else if cleaned ∈ localTypes then false
  else lastSegment cleaned ∈ denylist language

def shouldFilterType (language typeName : String) (localTypes : Finset String) : Bool :=
  shouldFilterTypeWithContext language typeName localTypes ∅

/-- How many type references were met, dropped and emitted. -/
structure FilterStats where
  totalConsidered : ℕ
  filteredCount : ℕ
  emittedCount : ℕ
  deriving DecidableEq

/-! ### The driver -/

/-- The part of the driver that type edges and receivers go through. `V` is what a language
knows of a variable; `receivers` are the answers of `lookupVar` so far. -/
structure TypeDriver (V : Type*) where
  edges : List Edge
  language : String
  filterStats : FilterStats
  localTypes : Finset String
  /-- One frame for each generic construct around, innermost first. -/
  typeParameterStack : List (Finset String)
  /-- The union of the frames. -/
  typeParameters : Finset String
  scopes : List (BTreeMap String V)
  receivers : List (Option V)

namespace TypeDriver

variable {V : Type*} (d : TypeDriver V)

def new (language : String) : TypeDriver V where
  edges := []
  language := language
  filterStats := ⟨0, 0, 0⟩
  localTypes := ∅
  typeParameterStack := []
  typeParameters := ∅
  scopes := []
  receivers := []

/-- All that the frames declare. -/
def declared : List (Finset String) → Finset String
  | [] => ∅
  | frame :: frames => frame ∪ declared frames

def pushTypeParameters (params : Finset String) : TypeDriver V :=
  { d with
    typeParameters := d.typeParameters ∪ params
    typeParameterStack := params :: d.typeParameterStack }

/-- Several frames can declare a name, so the union is made anew. -/
def popTypeParameters : TypeDriver V :=
  match d.typeParameterStack with
  | [] => d
  | _ :: frames => { d with typeParameterStack := frames, typeParameters := declared frames }

/-- An insertion outside every frame opens one. -/
def insertTypeParameter (name : String) : TypeDriver V :=
  match d.typeParameterStack with
  | [] =>
    { d with typeParameterStack := [{name}], typeParameters := insert name d.typeParameters }
  | frame :: frames =>
    { d with
      typeParameterStack := insert name frame :: frames
      typeParameters := insert name d.typeParameters }

/-- The base name of a type that the file defines. -/
def localName (typeName : String) : String :=
  Text.trim (lastSegment (String.ofList (typeName.toList.takeWhile (· ≠ '<'))))

def registerLocalType (typeName : String) : TypeDriver V :=
  { d with localTypes := insert (localName typeName) d.localTypes }

/-- A reference to a type by its name. -/
def typeEdge (source : NodeId) (relation ty : String) (hints : List (String × String)) : Edge :=
  { source := source, relation := relation, confidence := .extracted
    target := .symbol ⟨ty, BTreeMap.insertAll ∅ hints⟩ }

/-- A type edge, unless the type is noise. -/
def emitType (source : NodeId) (relation ty : String) (hints : List (String × String)) :
    TypeDriver V :=
  if shouldFilterTypeWithContext d.language ty d.localTypes d.typeParameters then
    { d with
      filterStats :=
        { d.filterStats with
          totalConsidered := d.filterStats.totalConsidered + 1
          filteredCount := d.filterStats.filteredCount + 1 } }
  else
    { d with
      edges := d.edges ++ [typeEdge source relation ty hints]
      filterStats :=
        { d.filterStats with
          totalConsidered := d.filterStats.totalConsidered + 1
          emittedCount := d.filterStats.emittedCount + 1 } }

def emitFieldType (source : NodeId) (name ty : String) (vis : Option String) : TypeDriver V :=
  d.emitType source "type/field" ty (("name", name) :: (vis.map fun v => ("vis", v)).toList)

def emitParamType (source : NodeId) (ty : String) : TypeDriver V :=
  d.emitType source "type/param" ty []

def emitReturnType (source : NodeId) (ty : String) : TypeDriver V :=
  d.emitType source "type/return" ty []

def emitBoundType (source : NodeId) (ty : String) : TypeDriver V :=
  d.emitType source "type/bound" ty []

def scopePush : TypeDriver V := { d with scopes := ∅ :: d.scopes }

def scopePop : TypeDriver V := { d with scopes := d.scopes.tail }

/-- A binding outside every scope is dropped. -/
def scopeInsert (var : String) (ty : V) : TypeDriver V :=
  match d.scopes with
  | [] => d
  | scope :: scopes => { d with scopes := scope.insert var ty :: scopes }

/-- What the nearest scope around that binds the variable says of it. -/
def lookupVar (var : String) : Option V := d.scopes.findSome? fun scope => scope[var]?

end TypeDriver

/-! ### A walk -/

/-- Where a type stands. -/
inductive Position
  | field (name : String) (vis : Option String)
  | param
  | «return»
  | bound

/-- What a walk meets, nested as the syntax tree is. -/
inductive Visit (V : Type*)
  /-- A class, an `impl`, an interface, a function: what declares type parameters. -/
  | generic (params : Finset String) (body : List (Visit V))
  /-- A function's parameters and body. -/
  | scope (body : List (Visit V))
  /-- `T = TypeVar(..)`. -/
  | typeVar (name : String)
  /-- A type that the file defines. -/
  | localType (name : String)
  | typeRef (source : NodeId) (position : Position) (ty : String)
  | «let» (var : String) (ty : V)
  /-- A method call on a variable. -/
  | receiver (var : String)

namespace TypeDriver

variable {V : Type*}

def emitAt (d : TypeDriver V) (source : NodeId) (ty : String) : Position → TypeDriver V
  | .field name vis => d.emitFieldType source name ty vis
  | .param => d.emitParamType source ty
  | .return => d.emitReturnType source ty
  | .bound => d.emitBoundType source ty

mutual

/-- The driver's calls for what is met. -/
def visit (d : TypeDriver V) : Visit V → TypeDriver V
  | .generic params body => (visitAll (d.pushTypeParameters params) body).popTypeParameters
  | .scope body => (visitAll d.scopePush body).scopePop
  | .typeVar name => d.insertTypeParameter name
  | .localType name => d.registerLocalType name
  | .typeRef source position ty => d.emitAt source ty position
  | .let var ty => d.scopeInsert var ty
  | .receiver var => { d with receivers := d.receivers ++ [d.lookupVar var] }

def visitAll (d : TypeDriver V) : List (Visit V) → TypeDriver V
  | [] => d
  | v :: vs => visitAll (visit d v) vs

end

end TypeDriver

/-! ### What a walk means -/

/-- What is visible at a place: the file's types and the type parameters, what is known of
the variables, and whether a variable can be bound. -/
structure Lexical (V : Type*) where
  localTypes : Finset String
  params : Finset String
  vars : String → Option V
  inside : Bool

/-- What is visible behind a construct, the references in it and the answers for its
receivers. -/
structure Meaning (V : Type*) where
  env : Lexical V
  edges : List Edge
  receivers : List (Option V)

def Position.relation : Position → String
  | field _ _ => "type/field"
  | param => "type/param"
  | «return» => "type/return"
  | bound => "type/bound"

def Position.hints : Position → List (String × String)
  | field name vis => ("name", name) :: (vis.map fun v => ("vis", v)).toList
  | _ => []

variable {V : Type*}

def Lexical.noise (env : Lexical V) (language ty : String) : Bool :=
  shouldFilterTypeWithContext language ty env.localTypes env.params

mutual

/-- Type parameters are visible in their construct, bindings up to the end of their scope. -/
def mean (language : String) (env : Lexical V) : Visit V → Meaning V
  | .generic params body =>
      let m := meanAll language { env with params := env.params ∪ params } body
      { m with env := { m.env with params := env.params } }
  | .scope body =>
      let m := meanAll language { env with inside := true } body
      { m with env := { m.env with vars := env.vars, inside := env.inside } }
  | .typeVar name => ⟨{ env with params := insert name env.params }, [], []⟩
  | .localType name =>
      ⟨{ env with localTypes := insert (TypeDriver.localName name) env.localTypes }, [], []⟩
  | .typeRef source position ty =>
      ⟨env, if env.noise language ty then []
        else [TypeDriver.typeEdge source position.relation ty position.hints], []⟩
  | .let var ty =>
      ⟨if env.inside then { env with vars := Function.update env.vars var (some ty) } else env,
        [], []⟩
  | .receiver var => ⟨env, [], [env.vars var]⟩

def meanAll (language : String) (env : Lexical V) : List (Visit V) → Meaning V
  | [] => ⟨env, [], []⟩
  | v :: vs =>
      let m := mean language env v
      let ms := meanAll language m.env vs
      ⟨ms.env, m.edges ++ ms.edges, m.receivers ++ ms.receivers⟩

end

/-! ### The stacks against the meaning -/

namespace TypeDriver

variable {d d' d'' : TypeDriver V} {m m' : Meaning V}

/-- The union beside the stack is that of its frames. -/
def Coherent (d : TypeDriver V) : Prop := d.typeParameters = declared d.typeParameterStack

/-- What the driver's state makes visible. -/
def env (d : TypeDriver V) : Lexical V :=
  ⟨d.localTypes, d.typeParameters, d.lookupVar, !d.scopes.isEmpty⟩

/-- The driver went through something of this meaning, and left the frames and scopes around
it as they were. -/
structure Went (d d' : TypeDriver V) (m : Meaning V) : Prop where
  coherent : d'.Coherent
  language : d'.language = d.language
  env : d'.env = m.env
  edges : d'.edges = d.edges ++ m.edges
  receivers : d'.receivers = d.receivers ++ m.receivers
  frames : d'.typeParameterStack.tail = d.typeParameterStack.tail
  framed : d.typeParameterStack ≠ [] → d'.typeParameterStack ≠ []
  scopes : d'.scopes.tail = d.scopes.tail
  scopeless : d'.scopes = [] ↔ d.scopes = []
  emitted : d'.filterStats.emittedCount = d.filterStats.emittedCount + m.edges.length
  considered : d'.filterStats.totalConsidered + d.filterStats.filteredCount
    = d.filterStats.totalConsidered + d'.filterStats.filteredCount + m.edges.length

theorem Went.trans (h : Went d d' m) (h' : Went d' d'' m') :
    Went d d'' ⟨m'.env, m.edges ++ m'.edges, m.receivers ++ m'.receivers⟩ where
  coherent := h'.coherent
  language := h'.language.trans h.language
  env := h'.env
  edges := by rw [h'.edges, h.edges, List.append_assoc]
  receivers := by rw [h'.receivers, h.receivers, List.append_assoc]
  frames := h'.frames.trans h.frames
  framed hne := h'.framed (h.framed hne)
  scopes := h'.scopes.trans h.scopes
  scopeless := h'.scopeless.trans h.scopeless
  emitted := by
    rw [h'.emitted, h.emitted, List.length_append]
    omega
  considered := by
    have h1 := h.considered
    have h2 := h'.considered
    rw [List.length_append]
    omega

/-- A move that emits nothing and answers nothing. -/
theorem went_silent {env : Lexical V} (hcoherent : d'.Coherent)
    (hlanguage : d'.language = d.language) (henv : d'.env = env) (hedges : d'.edges = d.edges)
    (hreceivers : d'.receivers = d.receivers)
    (hframes : d'.typeParameterStack.tail = d.typeParameterStack.tail)
    (hframed : d.typeParameterStack ≠ [] → d'.typeParameterStack ≠ [])
    (hscopes : d'.scopes.tail = d.scopes.tail) (hscopeless : d'.scopes = [] ↔ d.scopes = [])
    (hstats : d'.filterStats = d.filterStats) : Went d d' ⟨env, [], []⟩ where
  coherent := hcoherent
  language := hlanguage
  env := henv
  edges := by rw [hedges, List.append_nil]
  receivers := by rw [hreceivers, List.append_nil]
  frames := hframes
  framed := hframed
  scopes := hscopes
  scopeless := hscopeless
  emitted := by rw [hstats]; rfl
  considered := by rw [hstats]; rfl

theorem emitAt_eq (d : TypeDriver V) (source : NodeId) (ty : String) (position : Position) :
    d.emitAt source ty position = d.emitType source position.relation ty position.hints := by
  cases position <;> rfl

theorem went_typeRef (h : d.Coherent) (source : NodeId) (position : Position) (ty : String) :
    Went d (d.emitAt source ty position) (mean d.language d.env (.typeRef source position ty)) := by
  rw [emitAt_eq, emitType, mean]
  by_cases hnoise : shouldFilterTypeWithContext d.language ty d.localTypes d.typeParameters = true
  · have hmean : d.env.noise d.language ty = true := hnoise
    rw [if_pos hnoise, if_pos hmean]
    exact ⟨h, rfl, rfl, (List.append_nil _).symm, (List.append_nil _).symm, rfl, id, rfl, Iff.rfl,
      rfl, by simp only [List.length_nil]; omega⟩
  · have hmean : ¬ d.env.noise d.language ty = true := hnoise
    rw [if_neg hnoise, if_neg hmean]
    exact ⟨h, rfl, rfl, rfl, (List.append_nil _).symm, rfl, id, rfl, Iff.rfl, rfl,
      by simp only [List.length_singleton]; omega⟩

theorem went_typeVar (h : d.Coherent) (name : String) :
    Went d (d.insertTypeParameter name) (mean d.language d.env (.typeVar name)) := by
  rw [mean, insertTypeParameter]
  unfold Coherent at h
  split
  · rename_i hnil
    rw [hnil] at h
    refine went_silent ?_ rfl rfl rfl rfl (by rw [hnil]; rfl) (fun hne => absurd hnil hne) rfl
      Iff.rfl rfl
    simp [Coherent, h, declared]
  · rename_i frame frames hcons
    rw [hcons] at h
    refine went_silent ?_ rfl rfl rfl rfl (by rw [hcons]; rfl) (fun _ => List.cons_ne_nil _ _) rfl
      Iff.rfl rfl
    simp [Coherent, h, declared, Finset.insert_union]

theorem lookupVar_scopeInsert {scope : BTreeMap String V} {scopes : List (BTreeMap String V)}
    (hcons : d.scopes = scope :: scopes) (var : String) (ty : V) :
    { d with scopes := scope.insert var ty :: scopes }.lookupVar
      = Function.update d.lookupVar var (some ty) := by
  funext x
  simp only [lookupVar, hcons, List.findSome?_cons, BTreeMap.get_insert, Function.update_apply]
  by_cases hx : var = x
  · subst hx
    simp
  · rw [if_neg hx, if_neg (Ne.symm hx)]

theorem went_let (h : d.Coherent) (var : String) (ty : V) :
    Went d (d.scopeInsert var ty) (mean d.language d.env (.let var ty)) := by
  rw [mean, scopeInsert]
  split
  · rename_i hnil
    rw [if_neg (by simp [env, hnil])]
    exact went_silent h rfl rfl rfl rfl rfl id rfl Iff.rfl rfl
  · rename_i scope scopes hcons
    rw [if_pos (by simp [env, hcons])]
    refine went_silent h rfl ?_ rfl rfl rfl id (by rw [hcons]; rfl) (by simp [hcons]) rfl
    rw [env, lookupVar_scopeInsert hcons, env, hcons]
    rfl

theorem coherent_push (h : d.Coherent) (params : Finset String) :
    (d.pushTypeParameters params).Coherent := by
  unfold Coherent at h
  simp [Coherent, pushTypeParameters, declared, h, Finset.union_comm]

/-- Leaving the construct brings back what was declared around it. -/
theorem went_generic {params : Finset String} (h : d.Coherent)
    (hbody : Went (d.pushTypeParameters params) d' m) :
    Went d d'.popTypeParameters { m with env := { m.env with params := d.typeParameters } } := by
  have hne : d'.typeParameterStack ≠ [] := hbody.framed (List.cons_ne_nil _ _)
  have hframes : d'.typeParameterStack.tail = d.typeParameterStack := hbody.frames
  unfold Coherent at h
  have hpop : d'.popTypeParameters = { d' with
      typeParameterStack := d.typeParameterStack, typeParameters := d.typeParameters } := by
    unfold popTypeParameters
    split
    · rename_i hnil
      exact absurd hnil hne
    · rename_i frame frames hcons
      rw [hcons] at hframes
      rw [show frames = d.typeParameterStack from hframes, ← h]
  rw [hpop]
  exact ⟨h, hbody.language, by rw [← hbody.env]; rfl, hbody.edges, hbody.receivers, rfl, id,
    hbody.scopes, hbody.scopeless, hbody.emitted, hbody.considered⟩

/-- Leaving the scope brings back the bindings around it. -/
theorem went_scope (hbody : Went d.scopePush d' m) :
    Went d d'.scopePop { m with env :=
      { m.env with vars := d.lookupVar, inside := !d.scopes.isEmpty } } := by
  have hscopes : d'.scopes.tail = d.scopes := hbody.scopes
  have hpop : d'.scopePop = { d' with scopes := d.scopes } := by rw [scopePop, hscopes]
  rw [hpop]
  exact ⟨hbody.coherent, hbody.language, by rw [← hbody.env]; rfl, hbody.edges, hbody.receivers,
    hbody.frames, hbody.framed, rfl, Iff.rfl, hbody.emitted, hbody.considered⟩

theorem env_push (d : TypeDriver V) (params : Finset String) :
    (d.pushTypeParameters params).env = { d.env with params := d.env.params ∪ params } := rfl

/-- A new scope hides nothing. -/
theorem env_scopePush (d : TypeDriver V) : d.scopePush.env = { d.env with inside := true } := by
  have hvars : d.scopePush.lookupVar = d.lookupVar := by
    funext x
    simp [lookupVar, scopePush]
  rw [env, hvars]
  rfl

mutual

theorem went_visit : ∀ (v : Visit V) (d : TypeDriver V), d.Coherent →
    Went d (d.visit v) (mean d.language d.env v)
  | .generic params body, d, h => by
      rw [visit, mean]
      have hbody := went_visitAll body (d.pushTypeParameters params) (coherent_push h params)
      rw [env_push] at hbody
      exact went_generic h hbody
  | .scope body, d, h => by
      rw [visit, mean]
      have hbody := went_visitAll body d.scopePush h
      rw [env_scopePush] at hbody
      exact went_scope hbody
  | .typeVar name, _, h => went_typeVar h name
  | .localType _, _, h => went_silent h rfl rfl rfl rfl rfl id rfl Iff.rfl rfl
  | .typeRef source position ty, _, h => went_typeRef h source position ty
  | .let var ty, _, h => went_let h var ty
  | .receiver _, _, h =>
      ⟨h, rfl, rfl, (List.append_nil _).symm, rfl, rfl, id, rfl, Iff.rfl, rfl, rfl⟩

theorem went_visitAll : ∀ (vs : List (Visit V)) (d : TypeDriver V), d.Coherent →
    Went d (d.visitAll vs) (meanAll d.language d.env vs)
  | [], _, h => went_silent h rfl rfl rfl rfl rfl id rfl Iff.rfl rfl
  | v :: vs, d, h => by
      have hv := went_visit v d h
      have hvs := went_visitAll vs (d.visit v) hv.coherent
      rw [hv.language, hv.env] at hvs
      rw [visitAll, meanAll]
      exact hv.trans hvs

end

end TypeDriver

/-! ### No edge is noise -/

/-- The edge names a type that none of the parameters hides and that, where it is on the
language's list, the file defines. -/
def Clean (language : String) (params localTypes : Finset String) (e : Edge) : Prop :=
  ∃ ty hints, e.target = .symbol ⟨ty, hints⟩ ∧ Text.trim ty ≠ "" ∧ Text.trim ty ∉ params ∧
    (lastSegment (Text.trim ty) ∈ denylist language → Text.trim ty ∈ localTypes)

theorem Clean.mono {language : String} {params params' localTypes localTypes' : Finset String}
    {e : Edge} (h : Clean language params localTypes e) (hparams : params' ⊆ params)
    (hlocal : localTypes ⊆ localTypes') : Clean language params' localTypes' e := by
  obtain ⟨ty, hints, htarget, hne, hnot, hdeny⟩ := h
  exact ⟨ty, hints, htarget, hne, fun hmem => hnot (hparams hmem), fun hon => hlocal (hdeny hon)⟩

theorem clean_typeEdge {env : Lexical V} {language ty relation : String} {source : NodeId}
    {hints : List (String × String)} (h : ¬ env.noise language ty = true) :
    Clean language env.params env.localTypes (TypeDriver.typeEdge source relation ty hints) := by
  simp only [Lexical.noise, shouldFilterTypeWithContext] at h
  split at h
  · exact absurd rfl h
  · rename_i hne
    split at h
    · exact absurd rfl h
    · rename_i hparam
      split at h
      · rename_i hlocal
        exact ⟨ty, _, rfl, hne, hparam, fun _ => hlocal⟩
      · rename_i hlocal
        exact ⟨ty, _, rfl, hne, hparam, fun hon => absurd (decide_eq_true hon) h⟩

mutual

/-- What is visible only grows up to the end of a construct. -/
theorem mean_grows (language : String) : ∀ (v : Visit V) (env : Lexical V),
    env.params ⊆ (mean language env v).env.params ∧
      env.localTypes ⊆ (mean language env v).env.localTypes
  | .generic params body, env =>
      ⟨subset_rfl, (meanAll_grows language body { env with params := env.params ∪ params }).2⟩
  | .scope body, env => meanAll_grows language body { env with inside := true }
  | .typeVar name, env => ⟨Finset.subset_insert name env.params, subset_rfl⟩
  | .localType name, env => ⟨subset_rfl, Finset.subset_insert _ env.localTypes⟩
  | .typeRef _ _ _, _ => ⟨subset_rfl, subset_rfl⟩
  | .let var ty, env => by
      rw [mean]
      split <;> exact ⟨subset_rfl, subset_rfl⟩
  | .receiver _, _ => ⟨subset_rfl, subset_rfl⟩

theorem meanAll_grows (language : String) : ∀ (vs : List (Visit V)) (env : Lexical V),
    env.params ⊆ (meanAll language env vs).env.params ∧
      env.localTypes ⊆ (meanAll language env vs).env.localTypes
  | [], _ => ⟨subset_rfl, subset_rfl⟩
  | v :: vs, env =>
      have hv := mean_grows language v env
      have hvs := meanAll_grows language vs (mean language env v).env
      ⟨hv.1.trans hvs.1, hv.2.trans hvs.2⟩

end

mutual

theorem mean_clean (language : String) : ∀ (v : Visit V) (env : Lexical V),
    ∀ e ∈ (mean language env v).edges,
      Clean language env.params (mean language env v).env.localTypes e
  | .generic params body, env, e, he =>
      (meanAll_clean language body { env with params := env.params ∪ params } e he).mono
        Finset.subset_union_left subset_rfl
  | .scope body, env, e, he => meanAll_clean language body { env with inside := true } e he
  | .typeRef source position ty, env, e, he => by
      rw [mean] at he ⊢
      split at he
      · cases he
      · rename_i hnoise
        rw [List.mem_singleton.mp he]
        exact clean_typeEdge hnoise
  | .typeVar _, _, _, he => by cases he
  | .localType _, _, _, he => by cases he
  | .let _ _, _, _, he => by cases he
  | .receiver _, _, _, he => by cases he

theorem meanAll_clean (language : String) : ∀ (vs : List (Visit V)) (env : Lexical V),
    ∀ e ∈ (meanAll language env vs).edges,
      Clean language env.params (meanAll language env vs).env.localTypes e
  | [], _, _, he => by cases he
  | v :: vs, env, e, he => by
      have hv := mean_grows language v env
      have hvs := meanAll_grows language vs (mean language env v).env
      rcases List.mem_append.mp he with he | he
      · exact (mean_clean language v env e he).mono subset_rfl hvs.2
      · exact (meanAll_clean language vs (mean language env v).env e he).mono hv.1 subset_rfl

end

/-- Before anything of the file. -/
def Lexical.start : Lexical V := ⟨∅, ∅, fun _ => none, false⟩

/-- **Type edges are lexical.** However deep the constructs of a file nest, the driver emits
the references that are not noise where they stand, and answers for each receiver with the
binding that is visible there; no edge names a type parameter of a construct around it, nor
a type of the language's own; and every reference is counted once. -/
theorem visit_lexical (language : String) (vs : List (Visit V)) :
    ((TypeDriver.new language).visitAll vs).edges = (meanAll language Lexical.start vs).edges
    ∧ ((TypeDriver.new language).visitAll vs).receivers
      = (meanAll language Lexical.start vs).receivers
    ∧ ((TypeDriver.new language : TypeDriver V).visitAll vs).Coherent
    ∧ ((TypeDriver.new language).visitAll vs).filterStats.emittedCount
      = ((TypeDriver.new language).visitAll vs).edges.length
    ∧ ((TypeDriver.new language).visitAll vs).filterStats.totalConsidered
      = ((TypeDriver.new language).visitAll vs).filterStats.filteredCount
        + ((TypeDriver.new language).visitAll vs).filterStats.emittedCount
    ∧ ∀ (env : Lexical V) params body e, e ∈ (mean language env (.generic params body)).edges →
      Clean language (env.params ∪ params)
        (mean language env (.generic params body)).env.localTypes e := by
  have hwent := TypeDriver.went_visitAll vs (TypeDriver.new language) rfl
  have hedges : ((TypeDriver.new language).visitAll vs).edges
      = (meanAll language Lexical.start vs).edges := hwent.edges
  have hemitted : ((TypeDriver.new language).visitAll vs).filterStats.emittedCount
      = 0 + (meanAll language Lexical.start vs).edges.length := hwent.emitted
  have hconsidered : ((TypeDriver.new language).visitAll vs).filterStats.totalConsidered + 0
      = 0 + ((TypeDriver.new language).visitAll vs).filterStats.filteredCount
        + (meanAll language Lexical.start vs).edges.length := hwent.considered
  refine ⟨hedges, hwent.receivers, hwent.coherent, ?_, by omega, ?_⟩
  · rw [hedges, hemitted, Nat.zero_add]
  · intro env params body e he
    exact meanAll_clean language body { env with params := env.params ∪ params } e he

end Filigrio.Index
