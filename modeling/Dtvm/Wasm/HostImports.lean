import Dtvm.Wasm.Opcode

/-!
# Host functions for imports

`ModuleLoader::resolveImportFunction`. A name is looked up twice: an index is guessed from the distance
between symbols, and the list is searched when the guess fails. The guess does not look at `_isReserved`,
and it need not be the first entry of that name.
-/

namespace Dtvm.Wasm

/-- `NativeFuncDesc`; `_func_type` has the types of the parameters and then those of the results. -/
structure NativeFuncDesc where
  name : Nat
  ptr : Nat
  params : List ValType
  returns : List ValType
  isReserved : Bool
deriving DecidableEq, Repr

/-- The errors of `resolveImportFunction`. `undefined` is a read of the first entry of an empty list. -/
inductive ImportError where
  | unknownImport (detail : String)
  | incompatibleImportType (detail : String)
  | undefined
deriving DecidableEq, Repr

/-- `getWASMTypeString`. -/
def ValType.text : ValType → String
  | .i32 => "i32"
  | .i64 => "i64"
  | .f32 => "f32"
  | .f64 => "f64"

def expectedText (expected actual : String) : String :=
  "expected " ++ expected ++ ", acutal " ++ actual ++ ")"

/-- The loops over types: the first place where the types differ. -/
def typeMismatch : Nat → List ValType → List ValType → Option (Nat × ValType × ValType)
  | i, e :: expected, a :: actual =>
    if e ≠ a then some (i, e, a) else typeMismatch (i + 1) expected actual
  | _, _, _ => none

theorem typeMismatch_eq_none {expected actual : List ValType} (i : Nat)
    (same : expected.length = actual.length) : typeMismatch i expected actual = none ↔ expected = actual := by
  induction expected generalizing i actual with
  | nil => simp [typeMismatch, List.length_eq_zero_iff.mp same.symm]
  | cons e expected ih =>
    cases actual with
    | nil => simp at same
    | cons a actual =>
      by_cases equal : e = a
      · simp [typeMismatch, equal, ih (i + 1) (Nat.succ.inj same)]
      · simp [typeMismatch, equal]

namespace NativeFuncDesc

variable (target : NativeFuncDesc) (expected : TypeEntry)

/-- The comparisons of the types, or the detail of an `IncompatibleImportType`. The counts of the results are
printed the other way around. -/
def checkType : Except String Unit :=
  let returns := expected.result.toList
  if returns.length ≠ target.returns.length then
    .error ("return count mismatch (" ++
      expectedText (toString target.returns.length) (toString returns.length))
  else if expected.params.length ≠ target.params.length then
    .error ("param count mismatch (" ++
      expectedText (toString expected.params.length) (toString target.params.length))
  else match typeMismatch 0 returns target.returns with
  | some (_, e, a) => .error ("return type mismatch (" ++ expectedText e.text a.text)
  | none => match typeMismatch 0 expected.params target.params with
    | some (i, e, a) =>
      .error ("param type mismatch (param index: " ++ toString i ++ ", " ++ expectedText e.text a.text)
    | none => .ok ()

def HasType : Prop := target.params = expected.params ∧ target.returns = expected.result.toList

instance : Decidable (target.HasType expected) := inferInstanceAs (Decidable (_ ∧ _))

/-- The end of `resolveImportFunction`, for the entry that has been found. -/
def resolved : Except ImportError Nat :=
  match target.checkType expected with
  | .ok () => .ok target.ptr
  | .error detail => .error (.incompatibleImportType detail)

/-- What a request for this descriptor is to be answered with. -/
def answer : Option Nat := if target.HasType expected then some target.ptr else none

theorem checkType_ok : target.checkType expected = .ok () ↔ target.HasType expected := by
  unfold checkType HasType
  by_cases returns : expected.result.toList.length = target.returns.length
  · by_cases params : expected.params.length = target.params.length
    · have first := typeMismatch_eq_none 0 returns
      have second := typeMismatch_eq_none 0 params
      rw [if_neg (not_not_intro returns), if_neg (not_not_intro params), eq_comm (a := target.params),
        eq_comm (a := target.returns), ← first, ← second, and_comm]
      split
      · simp [*]
      · split <;> simp [*]
    · have other : target.params ≠ expected.params := fun same => params (same ▸ rfl)
      simp [returns, params, other]
  · have other : target.returns ≠ expected.result.toList := fun same => returns (same ▸ rfl)
    simp [returns, other]

theorem resolved_answer : target.resolved expected ≠ .error .undefined ∧
    (target.resolved expected).toOption = target.answer expected := by
  have checked := target.checkType_ok expected
  unfold resolved answer
  cases ends : target.checkType expected with
  | ok => simp [Except.toOption, checked.mp ends]
  | error e =>
    have mismatch : ¬target.HasType expected := fun same => by simp [checked.mpr same] at ends
    simp [Except.toOption, mismatch]

end NativeFuncDesc

/-- The fast lookup: the distance of the symbols is the index, if the entry there has the name. -/
def fastLookup (first : NativeFuncDesc) (rest : List NativeFuncDesc) (fieldName : Nat) : Option Nat :=
  let hostFuncs := first :: rest
  let nameIdx := fieldName - first.name
  if first.name ≤ fieldName ∧ fieldName ≤ (hostFuncs.getLast (List.cons_ne_nil _ _)).name ∧
      hostFuncs[nameIdx]?.any (·.name = fieldName) then some nameIdx
  else none

/-- The normal lookup: the first entry of that name that is not reserved. -/
def normalLookup (hostFuncs : List NativeFuncDesc) (fieldName : Nat) : Option Nat :=
  hostFuncs.findIdx? fun f => !f.isReserved && f.name = fieldName

/-- `FoundIdx` after both lookups; `none` is the number of functions. -/
def foundIdx (hostFuncs : List NativeFuncDesc) (fieldName : Nat) : Except ImportError (Option Nat) :=
  match hostFuncs with
  | [] => .error .undefined
  | first :: rest => .ok ((fastLookup first rest fieldName).or (normalLookup (first :: rest) fieldName))

/-- `resolveImportFunction`; `hostFuncs` is `none` when there is no such host module. -/
def resolveImportFunction (hostFuncs : Option (List NativeFuncDesc)) (fieldName : Nat)
    (expected : TypeEntry) : Except ImportError Nat :=
  match hostFuncs with
  | none => .error (.unknownImport "module not found")
  | some hostFuncs => do
    match (← foundIdx hostFuncs fieldName).bind (hostFuncs[·]?) with
    | none => .error (.unknownImport "function not found")
    | some target => target.resolved expected

/-- What an import is to be resolved with: the first entry of that name that is not reserved, if it has the
requested type. -/
def importedFunction (hostFuncs : List NativeFuncDesc) (fieldName : Nat) (expected : TypeEntry) : Option Nat :=
  (hostFuncs.find? fun f => !f.isReserved && f.name = fieldName).bind (·.answer expected)

def Resolved (hostFuncs : List NativeFuncDesc) (fieldName : Nat) (expected : TypeEntry) : Prop :=
  resolveImportFunction (some hostFuncs) fieldName expected ≠ .error .undefined ∧
    (resolveImportFunction (some hostFuncs) fieldName expected).toOption =
      importedFunction hostFuncs fieldName expected

/-- There is an entry; and when the name is between the first and the last one and is that of the entry at its
distance from the first, that entry is not reserved and all of that name before it are. -/
def InOrder (hostFuncs : List NativeFuncDesc) (fieldName : Nat) : Prop :=
  ∃ first ∈ hostFuncs.head?, ∃ last ∈ hostFuncs.getLast?, first.name ≤ fieldName → fieldName ≤ last.name →
    ∀ entry ∈ hostFuncs[fieldName - first.name]?, entry.name = fieldName → entry.isReserved = false ∧
      ∀ earlier ∈ hostFuncs.take (fieldName - first.name), earlier.name = fieldName → earlier.isReserved

section Lookups

variable {hostFuncs : List NativeFuncDesc} {fieldName : Nat}

theorem getElem?_normalLookup : (normalLookup hostFuncs fieldName).bind (hostFuncs[·]?) =
    hostFuncs.find? fun f => !f.isReserved && f.name = fieldName := by
  rw [normalLookup, List.find?_eq_bind_findIdx?_getElem?]

/-- What it takes for an index to be the one that the normal lookup finds. -/
theorem normalLookup_eq_some {i : Nat} {entry : NativeFuncDesc} (at_i : hostFuncs[i]? = some entry)
    (named : entry.name = fieldName) : normalLookup hostFuncs fieldName = some i ↔ entry.isReserved = false ∧
      ∀ earlier ∈ hostFuncs.take i, earlier.name = fieldName → earlier.isReserved := by
  obtain ⟨lt, rfl⟩ := List.getElem?_eq_some_iff.mp at_i
  rw [normalLookup, List.findIdx?_eq_some_iff_getElem]
  simp only [lt, named, List.mem_take_iff_getElem]
  constructor
  · rintro ⟨_, open_i, before⟩
    refine ⟨by simpa using open_i, ?_⟩
    rintro _ ⟨j, lt_j, rfl⟩ same
    simpa [same] using before j (by omega)
  · rintro ⟨open_i, before⟩
    refine ⟨trivial, by simp [open_i], fun j lt_j => ?_⟩
    have earlier := before hostFuncs[j] ⟨j, by omega, rfl⟩
    by_cases same : hostFuncs[j].name = fieldName <;> simp [same, earlier]

/-- The guess changes nothing exactly when the descriptors are in order. -/
theorem foundIdx_eq_normalLookup :
    foundIdx hostFuncs fieldName = .ok (normalLookup hostFuncs fieldName) ↔ InOrder hostFuncs fieldName := by
  cases hostFuncs with
  | nil => simp [foundIdx, InOrder]
  | cons first rest =>
    simp only [foundIdx, InOrder, List.head?_cons, Option.mem_def, Option.some.injEq, exists_eq_left',
      List.getLast?_eq_some_getLast (List.cons_ne_nil first rest), Except.ok.injEq, fastLookup]
    cases at_i : (first :: rest)[fieldName - first.name]? with
    | none => simp
    | some entry =>
      by_cases named : entry.name = fieldName
      · have found := normalLookup_eq_some at_i named
        split_ifs with within
        · rw [Option.some_or, eq_comm, found]
          simp [within.1, within.2.1, named]
        · simp_all
      · simp [named]

end Lookups

/-- Both lookups find the same entry exactly when the descriptors are in order, and then every import is
resolved as it should be. -/
theorem resolveImportFunction_exact (hostFuncs : List NativeFuncDesc) (fieldName : Nat) :
    (foundIdx hostFuncs fieldName = .ok (normalLookup hostFuncs fieldName) ↔ InOrder hostFuncs fieldName) ∧
      (InOrder hostFuncs fieldName → ∀ expected, Resolved hostFuncs fieldName expected) := by
  refine ⟨foundIdx_eq_normalLookup, fun order expected => ?_⟩
  have found := foundIdx_eq_normalLookup.mpr order
  simp only [Resolved, resolveImportFunction, importedFunction, found, ← getElem?_normalLookup, bind, Except.bind]
  cases (normalLookup hostFuncs fieldName).bind (hostFuncs[·]?) with
  | none => simp [Except.toOption]
  | some target => exact target.resolved_answer expected

/-- The third function is found by the guess, and one behind a gap of the symbols by the search. -/
theorem resolveImportFunction_exact_four :
    let hostFuncs : List NativeFuncDesc :=
      [⟨5, 1, [], [], true⟩, ⟨6, 2, [], [], true⟩, ⟨7, 3, [.i32], [.i64], false⟩, ⟨9, 4, [], [], false⟩]
    Resolved hostFuncs 7 ⟨[.i32], some .i64⟩ ∧ Resolved hostFuncs 9 ⟨[.f32], none⟩ :=
  ⟨(resolveImportFunction_exact _ 7).2 (by simp [InOrder]) _,
    (resolveImportFunction_exact _ 9).2 (by simp [InOrder]) _⟩

/-- The only function is reserved, and it is found. -/
theorem resolveImportFunction_reserved : resolveImportFunction (some [⟨5, 1, [], [], true⟩]) 5 ⟨[], none⟩ = .ok 1 ∧
      importedFunction [⟨5, 1, [], [], true⟩] 5 ⟨[], none⟩ = none := by
  decide

end Dtvm.Wasm
