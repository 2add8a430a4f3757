/-
# The macro engine

`yuzu_video_core/macro/macro.cpp`: the code that a guest uploads at a method is compiled when the method is called,
and the program is kept in `macro_cache` and, by its address, in `fast_lookup`.  A call into the middle of an upload
stores a copy of the rest of the upload at the method that was called.

`ClearCode` drops the program and the code of its own method.  It does not drop what was copied from the middle of
that code, so such a copy is run even after the code was uploaded again (`staleCopy_runs`).  While every copy is in
the middle of code that is not cleared or extended, a call runs a program that was made from the words uploaded last
(`execute_current`).  The addresses in `fast_lookup` are always those of programs that `macro_cache` holds.
-/

import NXEmu.Lib.Exec
import Mathlib.Data.List.AList
import Mathlib.Data.List.Induction
import Mathlib.Logic.Function.Basic

namespace NXEmu
namespace Tegra

open Function List Option

/-- The words of a macro. -/
abbrev Code := List (BitVec 32)

/-- `std::unordered_map<u32, V>` -/
abbrev MethodMap (V : Type) := AList fun _ : ℕ => V

/-- The order in which an `unordered_map` is gone through. -/
structure Iteration where
  order : List (Σ _ : ℕ, Code) → List (Σ _ : ℕ, Code)
  perm : ∀ entries, (order entries).Perm entries

/-- `FastEntry`, with the address of its program. -/
structure FastEntry where
  program : Option ℕ
  isLle : Bool
deriving DecidableEq

/-- `CacheInfo`, with the addresses of its programs; `Compile` does not return null. -/
structure CacheInfo where
  lleProgram : ℕ
  hleProgram : Option ℕ
  hash : ℕ
  hasHleProgram : Bool

/-- An entry without a program. -/
def FastEntry.null : FastEntry := ⟨none, false⟩

/-- The entry of `fast_lookup` for the programs of a method. -/
def CacheInfo.fastEntry (info : CacheInfo) : FastEntry :=
  if info.hasHleProgram then ⟨info.hleProgram, false⟩ else ⟨some info.lleProgram, true⟩

/-- The compiler, the hash, and the programs that replace code with a known hash. -/
structure Programs (P : Type) where
  compile : Code → P
  hashValue : Code → ℕ
  getHLEProgram : ℕ → Option P

/-- The engine, with the programs that are alive by their addresses. -/
structure MacroEngine (P : Type) where
  macroCache : MethodMap CacheInfo
  fastLookup : List FastEntry
  uploadedMacroCode : MethodMap Code
  objects : ℕ → Option P
  fresh : ℕ

/-- What a call ran, and whether it refreshed the parameters before. -/
structure Ran (P : Type) where
  program : P
  parameters : List (BitVec 32)
  method : ℕ
  refreshed : Bool

namespace MacroEngine

def fastLookupSize : ℕ := 0x2000

variable {P : Type}

/-- An engine without code. -/
def empty : MacroEngine P := ⟨∅, [], ∅, fun _ => none, 0⟩

/-- A new object, and its address. -/
def new (s : MacroEngine P) (program : P) : ℕ × MacroEngine P :=
  (s.fresh, { s with objects := Function.update s.objects s.fresh (some program), fresh := s.fresh + 1 })

/-- `AddCode` -/
def addCode (s : MacroEngine P) (method : ℕ) (data : BitVec 32) : MacroEngine P :=
  { s with uploadedMacroCode :=
      s.uploadedMacroCode.insert method ((s.uploadedMacroCode.lookup method).getD [] ++ [data]) }

/-- The objects that are left when the programs of an entry are deleted. -/
def delete (objects : ℕ → Option P) (info : CacheInfo) : ℕ → Option P := fun address =>
  if address = info.lleProgram ∨ info.hleProgram = some address then none else objects address

/-- `ClearCode`: all that is known of a method goes. -/
def clearCode (s : MacroEngine P) (method : ℕ) : MacroEngine P :=
  { s with
    fastLookup := s.fastLookup.set method FastEntry.null
    objects := (s.macroCache.lookup method).elim s.objects (delete s.objects)
    macroCache := s.macroCache.erase method
    uploadedMacroCode := s.uploadedMacroCode.erase method }

/-- The code of a method that has no program, and the map with the copy of the rest of an upload that the method is
in the middle of. -/
def findCode (uploaded : MethodMap Code) (iteration : Iteration) (method : ℕ) : Option (Code × MethodMap Code) :=
  match uploaded.lookup method with
  | some code => some (code, uploaded)
  | none =>
    match (iteration.order uploaded.entries).find? fun e => e.1 ≤ method ∧ method - e.1 < e.2.length with
    | none => none
    | some mid =>
      let code := mid.2.drop (method - mid.1)
      some (code, uploaded.insert method code)

/-- Keep the programs of a method. -/
def keep (s : MacroEngine P) (method : ℕ) (info : CacheInfo) : MacroEngine P :=
  { s with
    macroCache := s.macroCache.insert method info
    fastLookup :=
      if method < fastLookupSize then
        (s.fastLookup ++ List.replicate (method + 1 - s.fastLookup.length) FastEntry.null).set method info.fastEntry
      else s.fastLookup }

/-- Compile the code of a method, and keep its programs.  A replacement is not used while `disable_macro_hle` is
set. -/
def compileMacro (lib : Programs P) (disableMacroHle : Bool) (s : MacroEngine P) (method : ℕ) (code : Code) :
    CacheInfo × MacroEngine P :=
  let (lleProgram, s) := s.new (lib.compile code)
  let hash := lib.hashValue code
  match if disableMacroHle then none else lib.getHLEProgram hash with
  | some program =>
    let (hleProgram, s) := s.new program
    let info : CacheInfo := ⟨lleProgram, some hleProgram, hash, true⟩
    (info, s.keep method info)
  | none =>
    let info : CacheInfo := ⟨lleProgram, none, hash, false⟩
    (info, s.keep method info)

/-- Run the program at an address. -/
def runProgram (s : MacroEngine P) (address : Option ℕ) (parameters : List (BitVec 32)) (method : ℕ)
    (refreshed : Bool) : Exec (Ran P) :=
  match address.bind s.objects with
  | some program => return ⟨program, parameters, method, refreshed⟩
  | none => .fault

/-- Run the program of an entry. -/
def runCached (s : MacroEngine P) (info : CacheInfo) (parameters : List (BitVec 32)) (method : ℕ) : Exec (Ran P) :=
  if info.hasHleProgram then s.runProgram info.hleProgram parameters method false
  else s.runProgram (some info.lleProgram) parameters method true

/-- `Execute`: a call of a macro, which is compiled first when it is not in the cache; without code it does
nothing. -/
def execute (lib : Programs P) (s : MacroEngine P) (method : ℕ) (parameters : List (BitVec 32))
    (iteration : Iteration) (disableMacroHle : Bool) : Exec (MacroEngine P × Option (Ran P)) :=
  match s.fastLookup[method]? with
  | some ⟨some program, isLle⟩ => do
    let ran ← s.runProgram (some program) parameters method isLle
    return (s, some ran)
  | _ =>
    match s.macroCache.lookup method with
    | some info => do
      let ran ← s.runCached info parameters method
      return (s, some ran)
    | none =>
      match findCode s.uploadedMacroCode iteration method with
      | none => do
        Exec.assert False
        return (s, none)
      | some (code, uploaded) => do
        let (info, s) := compileMacro lib disableMacroHle { s with uploadedMacroCode := uploaded } method code
        let ran ← s.runCached info parameters method
        return (s, some ran)

/-- A call of the engine. -/
inductive Call where
  | clearCode (method : ℕ)
  | addCode (method : ℕ) (data : BitVec 32)
  | execute (method : ℕ) (parameters : List (BitVec 32)) (iteration : Iteration) (disableMacroHle : Bool)

/-- The engine after a call. -/
def step (lib : Programs P) (s : MacroEngine P) : Call → Exec (MacroEngine P)
  | .clearCode method => return s.clearCode method
  | .addCode method data => return s.addCode method data
  | .execute method parameters iteration disableMacroHle => do
    let (s, _) ← s.execute lib method parameters iteration disableMacroHle
    return s

/-- The engine after some calls. -/
def run (lib : Programs P) (calls : List Call) : Exec (MacroEngine P) := calls.foldlM (step lib) empty

/-! ### What the guest uploaded -/

/-- The words that are uploaded at a base: those since `ClearCode` of it. -/
def upload (words : ℕ → Option Code) : Call → ℕ → Option Code
  | .clearCode method => Function.update words method none
  | .addCode method data => Function.update words method (some ((words method).getD [] ++ [data]))
  | .execute .. => words

/-- The words that are uploaded after some calls. -/
def uploadedWords (calls : List Call) : ℕ → Option Code := calls.foldl upload fun _ => none

/-- A method in the middle of the words at a base, and the words from it on. -/
def Middle (words : ℕ → Option Code) (base method : ℕ) (code : Code) : Prop :=
  ∃ all, words base = some all ∧ base ≤ method ∧ method - base < all.length ∧ code = all.drop (method - base)

/-- The code that a call of a method should run. -/
def Expected (words : ℕ → Option Code) (method : ℕ) (code : Code) : Prop :=
  words method = some code ∨ words method = none ∧ ∃ base, Middle words base method code

/-- A program that was made from some code. -/
def MadeFrom (lib : Programs P) (code : Code) (program : P) : Prop :=
  program = lib.compile code ∨ lib.getHLEProgram (lib.hashValue code) = some program

/-- What is copied to another method is in the middle of the words at another base. -/
def CopiesElsewhere (words : ℕ → Option Code) (s : MacroEngine P) (base : ℕ) : Prop :=
  ∀ method code, method ≠ base → words method = none → s.uploadedMacroCode.lookup method = some code →
    ∃ base', base' ≠ base ∧ Middle words base' method code

/-- A call that leaves no stale program. -/
def Allowed (words : ℕ → Option Code) (s : MacroEngine P) : Call → Prop
  | .clearCode method => CopiesElsewhere words s method
  | .addCode method _ => s.macroCache.lookup method = none ∧ CopiesElsewhere words s method
  | .execute .. => True

/-! ### The programs that are kept -/

variable {lib : Programs P} {s : MacroEngine P} {objects : ℕ → Option P} {code : Code} {info info' : CacheInfo}
  {method base address : ℕ} {program : P} {origin words : ℕ → Option Code} {parameters : List (BitVec 32)}
  {iteration : Iteration} {disableMacroHle : Bool}

/-- An entry owns the program at an address. -/
def Owns (info : CacheInfo) (address : ℕ) : Prop := address = info.lleProgram ∨ info.hleProgram = some address

/-- The programs of an entry are alive and were made from some code. -/
structure Made (lib : Programs P) (objects : ℕ → Option P) (code : Code) (info : CacheInfo) : Prop where
  lle : objects info.lleProgram = some (lib.compile code)
  hle : ∀ address, info.hleProgram = some address →
    ∃ program, objects address = some program ∧ lib.getHLEProgram (lib.hashValue code) = some program
  hasHle : info.hasHleProgram = info.hleProgram.isSome

theorem Made.isSome (h : Made lib objects code info) (howns : Owns info address) : (objects address).isSome := by
  rcases howns with rfl | hhle
  · rw [h.lle, isSome_some]
  · obtain ⟨program, hprogram, -⟩ := h.hle address hhle
    rw [hprogram, isSome_some]

/-- Objects that an entry does not own do not matter to it. -/
theorem Made.congr {objects' : ℕ → Option P} (h : Made lib objects code info)
    (hsame : ∀ address, Owns info address → objects' address = objects address) : Made lib objects' code info := by
  constructor
  · rw [hsame _ (.inl rfl), h.lle]
  · intro address hhle
    rw [hsame _ (.inr hhle)]
    exact h.hle address hhle
  · exact h.hasHle

/-- **The program of an entry** runs, and it was made from the code of the entry. -/
theorem runCached_spec (h : Made lib s.objects code info) (parameters : List (BitVec 32)) (method : ℕ) :
    ∃ ran, s.runCached info parameters method = .ret ran true ∧ MadeFrom lib code ran.program ∧
      s.runProgram info.fastEntry.program parameters method info.fastEntry.isLle = .ret ran true := by
  cases hhle : info.hleProgram with
  | none =>
    have hhas : info.hasHleProgram = false := by rw [h.hasHle, hhle]; rfl
    exact ⟨⟨lib.compile code, parameters, method, true⟩, by simp [runCached, hhas, runProgram, h.lle], .inl rfl,
      by simp [CacheInfo.fastEntry, hhas, runProgram, h.lle]⟩
  | some address =>
    have hhas : info.hasHleProgram = true := by rw [h.hasHle, hhle]; rfl
    obtain ⟨program, hprogram, hget⟩ := h.hle address hhle
    exact ⟨⟨program, parameters, method, false⟩, by simp [runCached, hhas, hhle, runProgram, hprogram], .inr hget,
      by simp [CacheInfo.fastEntry, hhas, hhle, runProgram, hprogram]⟩

/-- What holds of the programs after any calls, with the code that each entry was made from. -/
structure Inv (lib : Programs P) (origin : ℕ → Option Code) (s : MacroEngine P) : Prop where
  made : ∀ method info, s.macroCache.lookup method = some info →
    ∃ code, origin method = some code ∧ Made lib s.objects code info
  unkept : ∀ method, s.macroCache.lookup method = none → origin method = none
  apart : ∀ method method' info info' address, s.macroCache.lookup method = some info →
    s.macroCache.lookup method' = some info' → Owns info address → Owns info' address → method = method'
  fresh : ∀ address, s.fresh ≤ address → s.objects address = none
  fast : ∀ method entry, s.fastLookup[method]? = some entry → entry.program ≠ none →
    ∃ info, s.macroCache.lookup method = some info ∧ entry = info.fastEntry

theorem inv_empty : Inv lib (fun _ => none) (empty : MacroEngine P) := by
  constructor <;> simp [empty]

/-- An entry owns no object that is still to come. -/
theorem Inv.lt_fresh (h : Inv lib origin s) (hinfo : s.macroCache.lookup method = some info)
    (howns : Owns info address) : address < s.fresh := by
  by_contra hge
  obtain ⟨code, -, hmade⟩ := h.made method info hinfo
  have hsome := hmade.isSome howns
  rw [h.fresh address (not_lt.1 hge)] at hsome
  cases hsome

theorem Inv.addCode (h : Inv lib origin s) (method : ℕ) (data : BitVec 32) : Inv lib origin (s.addCode method data) :=
  { h with }

theorem lookup_clearCode {method' : ℕ} : (s.clearCode method).macroCache.lookup method' =
    if method' = method then none else s.macroCache.lookup method' := by
  rw [clearCode]
  split_ifs with hsame
  · rw [hsame, AList.lookup_erase]
  · exact AList.lookup_erase_ne hsame

/-- `ClearCode` deletes no program of another method. -/
theorem Inv.objects_clearCode (h : Inv lib origin s) {method' : ℕ} (hne : method' ≠ method)
    (hinfo : s.macroCache.lookup method' = some info) (howns : Owns info address) :
    (s.clearCode method).objects address = s.objects address := by
  rw [MacroEngine.clearCode]
  cases hold : s.macroCache.lookup method with
  | none => rfl
  | some old =>
    have hnot : ¬Owns old address := fun hboth => hne (h.apart method' method info old address hinfo hold howns hboth)
    exact if_neg hnot

/-- **`ClearCode`** drops the programs of its method. -/
theorem Inv.clearCode (h : Inv lib origin s) (method : ℕ) :
    Inv lib (update origin method none) (s.clearCode method) := by
  constructor
  · intro method' info hinfo
    rw [lookup_clearCode] at hinfo
    split_ifs at hinfo with hsame
    obtain ⟨code, horigin, hmade⟩ := h.made method' info hinfo
    rw [update_of_ne hsame]
    exact ⟨code, horigin, hmade.congr fun address howns => h.objects_clearCode hsame hinfo howns⟩
  · intro method' hnone
    rw [lookup_clearCode] at hnone
    split_ifs at hnone with hsame
    · rw [hsame, update_self]
    · rw [update_of_ne hsame, h.unkept method' hnone]
  · intro m m' info info' address hinfo hinfo' howns howns'
    rw [lookup_clearCode] at hinfo hinfo'
    split_ifs at hinfo hinfo'
    exact h.apart m m' info info' address hinfo hinfo' howns howns'
  · intro address hfresh
    have hold := h.fresh address hfresh
    rw [MacroEngine.clearCode]
    cases s.macroCache.lookup method with
    | none => exact hold
    | some old =>
      show (if _ then _ else _) = _
      rw [hold, ite_self]
  · intro method' entry hentry hprogram
    rw [MacroEngine.clearCode, getElem?_set] at hentry
    rw [lookup_clearCode]
    split_ifs at hentry with hsame hlt
    · rw [← some_inj.1 hentry] at hprogram
      exact absurd rfl hprogram
    · rw [if_neg (Ne.symm hsame)]
      exact h.fast method' entry hentry hprogram

/-- A new object changes no entry. -/
theorem Inv.new (h : Inv lib origin s) (program : P) : Inv lib origin (s.new program).2 := by
  have hsame : ∀ address, address < s.fresh → (s.new program).2.objects address = s.objects address :=
    fun address hlt => update_of_ne (Nat.ne_of_lt hlt) _ _
  refine ⟨fun method info hinfo => ?_, h.unkept, h.apart, fun address hfresh => ?_, h.fast⟩
  · obtain ⟨code, horigin, hmade⟩ := h.made method info hinfo
    exact ⟨code, horigin, hmade.congr fun address howns => hsame address (h.lt_fresh hinfo howns)⟩
  · have hlt : s.fresh < address := Nat.lt_of_succ_le hfresh
    show update s.objects s.fresh (some program) address = none
    rw [update_of_ne (Nat.ne_of_gt hlt)]
    exact h.fresh address (Nat.le_of_lt hlt)

/-- The entries that are not null after an entry was put into `fast_lookup`. -/
theorem getElem?_keep {entry : FastEntry} {method' : ℕ}
    (hentry : (s.keep method info).fastLookup[method']? = some entry) (hprogram : entry.program ≠ none) :
    method' = method ∧ entry = info.fastEntry ∨ s.fastLookup[method']? = some entry := by
  rw [keep] at hentry
  split_ifs at hentry with hlt
  · rw [getElem?_set] at hentry
    split_ifs at hentry with hsame hlength
    · exact .inl ⟨hsame.symm, (some_inj.1 hentry).symm⟩
    · rw [getElem?_append] at hentry
      split_ifs at hentry with hold
      · exact .inr hentry
      · -- the entries in between are null
        rw [eq_of_mem_replicate (mem_of_getElem? hentry)] at hprogram
        exact absurd rfl hprogram
  · exact .inr hentry

/-- **The programs of a method are kept**, when they are its own. -/
theorem Inv.keep (h : Inv lib origin s) (hnone : s.macroCache.lookup method = none)
    (hmade : Made lib s.objects code info)
    (howner : ∀ method' info' address, s.macroCache.lookup method' = some info' → Owns info address →
      ¬Owns info' address) :
    Inv lib (update origin method (some code)) (s.keep method info) := by
  have hlookup : ∀ method', (s.keep method info).macroCache.lookup method' =
      if method' = method then some info else s.macroCache.lookup method' := fun method' => by
    by_cases hsame : method' = method
    · rw [if_pos hsame, hsame]
      exact AList.lookup_insert _
    · rw [if_neg hsame]
      exact AList.lookup_insert_ne hsame
  constructor
  · intro method' info' hinfo
    rw [hlookup] at hinfo
    split_ifs at hinfo with hsame
    · rw [hsame, update_self, ← some_inj.1 hinfo]
      exact ⟨code, rfl, hmade⟩
    · rw [update_of_ne hsame]
      exact h.made method' info' hinfo
  · intro method' hnone
    rw [hlookup] at hnone
    split_ifs at hnone with hsame
    rw [update_of_ne hsame, h.unkept method' hnone]
  · intro m m' info₁ info₂ address hinfo₁ hinfo₂ howns₁ howns₂
    rw [hlookup] at hinfo₁ hinfo₂
    split_ifs at hinfo₁ hinfo₂ with hsame₁ hsame₂ hsame₂
    · rw [hsame₁, hsame₂]
    · rw [← some_inj.1 hinfo₁] at howns₁
      exact absurd howns₂ (howner m' info₂ address hinfo₂ howns₁)
    · rw [← some_inj.1 hinfo₂] at howns₂
      exact absurd howns₁ (howner m info₁ address hinfo₁ howns₂)
    · exact h.apart m m' info₁ info₂ address hinfo₁ hinfo₂ howns₁ howns₂
  · exact h.fresh
  · intro method' entry hentry hprogram
    rw [hlookup]
    rcases getElem?_keep hentry hprogram with ⟨rfl, rfl⟩ | hold
    · exact ⟨info, if_pos rfl, rfl⟩
    · obtain ⟨info', hinfo', heq⟩ := h.fast method' entry hold hprogram
      refine ⟨info', ?_, heq⟩
      rw [if_neg, hinfo']
      rintro rfl
      rw [hnone] at hinfo'
      cases hinfo'

/-- **Compiling** keeps programs that were made from the code. -/
theorem compileMacro_spec (h : Inv lib origin s) (hnone : s.macroCache.lookup method = none) (code : Code)
    (disableMacroHle : Bool) : ∃ info s', compileMacro lib disableMacroHle s method code = (info, s') ∧
      Inv lib (update origin method (some code)) s' ∧ Made lib s'.objects code info ∧
      s'.uploadedMacroCode = s.uploadedMacroCode := by
  have hlle := h.new (lib.compile code)
  rw [compileMacro]
  simp only
  cases hget : if disableMacroHle then none else lib.getHLEProgram (lib.hashValue code) with
  | none =>
    have hmade : Made lib (s.new (lib.compile code)).2.objects code ⟨s.fresh, none, lib.hashValue code, false⟩ := by
      constructor
      · exact update_self ..
      · simp
      · rfl
    refine ⟨_, _, rfl, hlle.keep hnone hmade fun method' info' address hinfo howns howns' => ?_, hmade, rfl⟩
    have hlt := h.lt_fresh hinfo howns'
    rcases howns with rfl | hhle
    · exact lt_irrefl _ hlt
    · cases hhle
  | some program =>
    have hprogram : lib.getHLEProgram (lib.hashValue code) = some program := by
      split_ifs at hget
      exact hget
    have hmade : Made lib ((s.new (lib.compile code)).2.new program).2.objects code
        ⟨s.fresh, some (s.fresh + 1), lib.hashValue code, true⟩ := by
      constructor
      · exact (update_of_ne (Nat.ne_of_lt (Nat.lt_succ_self _)) _ _).trans (update_self ..)
      · rintro address haddress
        cases haddress
        exact ⟨program, update_self .., hprogram⟩
      · rfl
    refine ⟨_, _, rfl, (hlle.new program).keep hnone hmade fun method' info' address hinfo howns howns' => ?_, hmade,
      rfl⟩
    have hlt := h.lt_fresh hinfo howns'
    rcases howns with rfl | hhle
    · exact lt_irrefl _ hlt
    · cases hhle
      exact absurd hlt (Nat.not_lt.2 (Nat.le_succ _))

/-- **What `Execute` does**: it runs the program that is kept, compiles the code of the method, or fails its
assertion. -/
theorem execute_spec (h : Inv lib origin s) (method : ℕ) (parameters : List (BitVec 32)) (iteration : Iteration)
    (disableMacroHle : Bool) :
    (∃ code ran, origin method = some code ∧ MadeFrom lib code ran.program ∧
      s.execute lib method parameters iteration disableMacroHle = .ret (s, some ran) true) ∨
    (∃ code uploaded s' ran, origin method = none ∧
      findCode s.uploadedMacroCode iteration method = some (code, uploaded) ∧
      Inv lib (update origin method (some code)) s' ∧ s'.uploadedMacroCode = uploaded ∧
      MadeFrom lib code ran.program ∧
      s.execute lib method parameters iteration disableMacroHle = .ret (s', some ran) true) ∨
    (origin method = none ∧ findCode s.uploadedMacroCode iteration method = none ∧
      s.execute lib method parameters iteration disableMacroHle = .ret (s, none) false) := by
  rw [execute]
  split
  · -- the direct table
    rename_i program isLle hentry
    obtain ⟨info, hinfo, heq⟩ := h.fast method _ hentry (by simp)
    obtain ⟨code, horigin, hmade⟩ := h.made method info hinfo
    obtain ⟨ran, -, hfrom, hrun⟩ := runCached_spec hmade parameters method
    rw [← heq] at hrun
    exact .inl ⟨code, ran, horigin, hfrom, by rw [hrun]; rfl⟩
  · cases hinfo : s.macroCache.lookup method with
    | some info =>
      obtain ⟨code, horigin, hmade⟩ := h.made method info hinfo
      obtain ⟨ran, hrun, hfrom, -⟩ := runCached_spec hmade parameters method
      exact .inl ⟨code, ran, horigin, hfrom, by simp only [hrun]; rfl⟩
    | none =>
      have horigin := h.unkept method hinfo
      cases hfind : findCode s.uploadedMacroCode iteration method with
      | none => exact .inr (.inr ⟨horigin, rfl, rfl⟩)
      | some found =>
        obtain ⟨code, uploaded⟩ := found
        have hcopy : Inv lib origin { s with uploadedMacroCode := uploaded } :=
          { h with }
        obtain ⟨info, s', hcompile, hinv, hmade, hsame⟩ := compileMacro_spec hcopy hinfo code disableMacroHle
        obtain ⟨ran, hrun, hfrom, -⟩ := runCached_spec hmade parameters method
        refine .inr (.inl ⟨code, uploaded, s', ran, horigin, rfl, hinv, hsame, hfrom, ?_⟩)
        simp only [hcompile, hrun]
        rfl

/-! ### The code that is found -/

variable {uploaded : MethodMap Code}

/-- The code of a method: what is at it, or else the rest of an upload that it is in the middle of. -/
theorem findCode_spec (uploaded : MethodMap Code) (iteration : Iteration) (method : ℕ) :
    match findCode uploaded iteration method with
    | none => uploaded.lookup method = none ∧ ∀ code base, ¬Middle (uploaded.lookup ·) base method code
    | some (code, uploaded') => uploaded.lookup method = some code ∧ uploaded' = uploaded ∨
        uploaded.lookup method = none ∧ uploaded' = uploaded.insert method code ∧
        ∃ base, Middle (uploaded.lookup ·) base method code := by
  rw [findCode]
  cases hlookup : uploaded.lookup method with
  | some code => exact .inl ⟨rfl, rfl⟩
  | none =>
    simp only
    cases hfind : (iteration.order uploaded.entries).find? fun e => e.1 ≤ method ∧ method - e.1 < e.2.length with
    | none =>
      refine ⟨trivial, ?_⟩
      rintro code base ⟨all, hall, hle, hlt, -⟩
      have hmem := (iteration.perm _).mem_iff.2 (AList.mem_lookup_iff.1 hall)
      simpa [hle, hlt] using find?_eq_none.1 hfind _ hmem
    | some mid =>
      have hmem := (iteration.perm _).mem_iff.1 (mem_of_find?_eq_some hfind)
      have hin : mid.1 ≤ method ∧ method - mid.1 < mid.2.length := by simpa using find?_some hfind
      exact .inr ⟨trivial, rfl, mid.1, mid.2, AList.mem_lookup_iff.2 hmem, hin.1, hin.2, rfl⟩

/-- The middle of a middle. -/
theorem Middle.trans {mid : ℕ} {code' : Code} (h : Middle words base mid code) (hle : mid ≤ method)
    (hlt : method - mid < code.length) (hcode : code' = code.drop (method - mid)) :
    Middle words base method code' := by
  obtain ⟨all, hall, hbase, hin, rfl⟩ := h
  rw [length_drop] at hlt
  refine ⟨all, hall, Nat.le_trans hbase hle, by omega, ?_⟩
  rw [hcode, drop_drop]
  congr 1
  omega

/-! ### Code that is up to date -/

/-- What is kept belongs to the words that are uploaded: the map has the words of every base, what it has else was
copied from the middle of them, and each entry was made from what the map has. -/
structure Current (words : ℕ → Option Code) (origin : ℕ → Option Code) (uploaded : MethodMap Code) : Prop where
  present : ∀ base all, words base = some all → uploaded.lookup base = some all
  copies : ∀ method code, uploaded.lookup method = some code → words method = none →
    origin method = some code ∧ ∃ base, Middle words base method code
  kept : ∀ method code, origin method = some code → uploaded.lookup method = some code

theorem current_empty : Current (fun _ => none) (fun _ => none) ∅ := by
  constructor <;> simp

/-- A base whose words change keeps what is in the middle of others. -/
theorem Middle.update {words' : Option Code} {base' : ℕ} (h : Middle words base' method code) (hne : base' ≠ base) :
    Middle (update words base words') base' method code := by
  obtain ⟨all, hall, hin⟩ := h
  exact ⟨all, by rw [update_of_ne hne, hall], hin⟩

section

variable (h : Current words origin uploaded)

include h

/-- **`ClearCode`** of a base without copies. -/
theorem Current.clearCode
    (hcopies : ∀ method code, method ≠ base → words method = none → uploaded.lookup method = some code →
      ∃ base', base' ≠ base ∧ Middle words base' method code) :
    Current (update words base none) (update origin base none) (uploaded.erase base) := by
  constructor
  · intro method all hall
    by_cases hsame : method = base
    · rw [hsame, update_self] at hall
      cases hall
    · rw [update_of_ne hsame] at hall
      rw [AList.lookup_erase_ne hsame, h.present method all hall]
  · intro method code hcode hnone
    by_cases hsame : method = base
    · rw [hsame, AList.lookup_erase] at hcode
      cases hcode
    · rw [AList.lookup_erase_ne hsame] at hcode
      rw [update_of_ne hsame] at hnone ⊢
      obtain ⟨base', hne, hmiddle⟩ := hcopies method code hsame hnone hcode
      exact ⟨(h.copies method code hcode hnone).1, base', hmiddle.update hne⟩
  · intro method code horigin
    by_cases hsame : method = base
    · rw [hsame, update_self] at horigin
      cases horigin
    · rw [update_of_ne hsame] at horigin
      rw [AList.lookup_erase_ne hsame, h.kept method code horigin]

/-- **`AddCode`** of a base without a program and without copies. -/
theorem Current.addCode (hunkept : origin base = none)
    (hcopies : ∀ method code, method ≠ base → words method = none → uploaded.lookup method = some code →
      ∃ base', base' ≠ base ∧ Middle words base' method code) (data : BitVec 32) :
    Current (update words base (some ((words base).getD [] ++ [data]))) origin
      (uploaded.insert base ((uploaded.lookup base).getD [] ++ [data])) := by
  -- there is no copy at the base itself
  have hbase : uploaded.lookup base = words base := by
    cases hwords : words base with
    | some all => exact h.present base all hwords
    | none =>
      cases hlookup : uploaded.lookup base with
      | none => rfl
      | some code =>
        have horigin := (h.copies base code hlookup hwords).1
        rw [hunkept] at horigin
        cases horigin
  constructor
  · intro method all hall
    by_cases hsame : method = base
    · rw [hsame, update_self] at hall
      rw [hsame, AList.lookup_insert, hbase, hall]
    · rw [update_of_ne hsame] at hall
      rw [AList.lookup_insert_ne hsame, h.present method all hall]
  · intro method code hcode hnone
    by_cases hsame : method = base
    · rw [hsame, update_self] at hnone
      cases hnone
    · rw [AList.lookup_insert_ne hsame] at hcode
      rw [update_of_ne hsame] at hnone
      obtain ⟨base', hne, hmiddle⟩ := hcopies method code hsame hnone hcode
      exact ⟨(h.copies method code hcode hnone).1, base', hmiddle.update hne⟩
  · intro method code horigin
    have hne : method ≠ base := by
      rintro rfl
      rw [hunkept] at horigin
      cases horigin
    rw [AList.lookup_insert_ne hne, h.kept method code horigin]

/-- What is in the middle of something in the map is in the middle of words that are uploaded. -/
theorem Current.middle (hmiddle : Middle (uploaded.lookup ·) base method code) :
    ∃ base', Middle words base' method code := by
  obtain ⟨all, hall, hle, hlt, hcode⟩ := hmiddle
  replace hall : uploaded.lookup base = some all := hall
  cases hwords : words base with
  | some all' =>
    have hsame := h.present base all' hwords
    rw [hall] at hsame
    exact ⟨base, all, by rw [hwords, hsame], hle, hlt, hcode⟩
  | none =>
    obtain ⟨-, base', hbase'⟩ := h.copies base all hall hwords
    exact ⟨base', hbase'.trans hle hlt hcode⟩

/-- **The code that is found** is what a call should run, and what is kept with it stays up to date. -/
theorem Current.findCode (horigin : origin method = none)
    {uploaded' : MethodMap Code} (hfind : findCode uploaded iteration method = some (code, uploaded')) :
    Expected words method code ∧ Current words (update origin method (some code)) uploaded' := by
  have hspec := findCode_spec uploaded iteration method
  rw [hfind] at hspec
  rcases hspec with ⟨hlookup, rfl⟩ | ⟨hlookup, rfl, base, hmiddle⟩
  · have hwords : words method = some code := by
      cases hwords : words method with
      | some all => rw [← hlookup, h.present method all hwords]
      | none =>
        have hkept := (h.copies method code hlookup hwords).1
        rw [horigin] at hkept
        cases hkept
    refine ⟨.inl hwords, h.present, fun m c hc hnone => ?_, fun m c hc => ?_⟩
    · have hne : m ≠ method := by
        rintro rfl
        rw [hwords] at hnone
        cases hnone
      rw [update_of_ne hne]
      exact h.copies m c hc hnone
    · by_cases hsame : m = method
      · rw [hsame, update_self] at hc
        rw [hsame, hlookup, hc]
      · rw [update_of_ne hsame] at hc
        exact h.kept m c hc
  · have hwords : words method = none := by
      cases hwords : words method with
      | none => rfl
      | some all =>
        have hsome := h.present method all hwords
        rw [hlookup] at hsome
        cases hsome
    have hmiddle' := h.middle hmiddle
    refine ⟨.inr ⟨hwords, hmiddle'⟩, fun m all hall => ?_, fun m c hc hnone => ?_, fun m c hc => ?_⟩
    · rw [AList.lookup_insert_ne, h.present m all hall]
      rintro rfl
      rw [hwords] at hall
      cases hall
    · by_cases hsame : m = method
      · rw [hsame, AList.lookup_insert, some_inj] at hc
        rw [hsame, update_self, ← hc]
        exact ⟨rfl, hmiddle'⟩
      · rw [AList.lookup_insert_ne hsame] at hc
        rw [update_of_ne hsame]
        exact h.copies m c hc hnone
    · by_cases hsame : m = method
      · rw [hsame, update_self] at hc
        rw [hsame, AList.lookup_insert, hc]
      · rw [update_of_ne hsame] at hc
        rw [AList.lookup_insert_ne hsame]
        exact h.kept m c hc

end

/-! ### Runs -/

/-- What `Execute` should do: it runs a program that was made from the expected code, or there is none. -/
def Executes (lib : Programs P) (words : ℕ → Option Code) (s : MacroEngine P) : Prop :=
  ∀ method parameters iteration disableMacroHle,
    (s.execute lib method parameters iteration disableMacroHle).wp fun result held =>
      match result.2 with
      | none => held = false ∧ ∀ code, ¬Expected words method code
      | some ran => held = true ∧ ∃ code, Expected words method code ∧ MadeFrom lib code ran.program

/-- The addresses in `fast_lookup` are those of programs that `macro_cache` holds for their methods. -/
def FastLookupLive (s : MacroEngine P) : Prop :=
  ∀ method entry address, s.fastLookup[method]? = some entry → entry.program = some address →
    ∃ info, s.macroCache.lookup method = some info ∧ entry = info.fastEntry ∧ (s.objects address).isSome

theorem Inv.fastLookupLive (h : Inv lib origin s) : FastLookupLive s := by
  intro method entry address hentry haddress
  obtain ⟨info, hinfo, rfl⟩ := h.fast method entry hentry (by simp [haddress])
  obtain ⟨code, -, hmade⟩ := h.made method info hinfo
  have howns : Owns info address := by
    rw [CacheInfo.fastEntry] at haddress
    split_ifs at haddress
    · exact .inr haddress
    · exact .inl (some_inj.1 haddress).symm
  exact ⟨info, hinfo, rfl, hmade.isSome howns⟩

/-- The code of an entry that is up to date is the expected one. -/
theorem Current.expected (h : Current words origin uploaded) (horigin : origin method = some code) :
    Expected words method code := by
  have hlookup := h.kept method code horigin
  cases hwords : words method with
  | none => exact .inr ⟨hwords, (h.copies method code hlookup hwords).2⟩
  | some all =>
    rw [h.present method all hwords] at hlookup
    exact .inl (hwords.trans hlookup)

/-- **A call runs what it should**, when everything is up to date. -/
theorem executes (h : Inv lib origin s) (hcurrent : Current words origin s.uploadedMacroCode) :
    Executes lib words s := by
  intro method parameters iteration disableMacroHle
  rcases execute_spec h method parameters iteration disableMacroHle with ⟨code, ran, horigin, hfrom, heq⟩ |
    ⟨code, uploaded, s', ran, horigin, hfind, -, -, hfrom, heq⟩ | ⟨-, hfind, heq⟩
  · rw [heq, Exec.wp_ret]
    exact ⟨rfl, code, hcurrent.expected horigin, hfrom⟩
  · rw [heq, Exec.wp_ret]
    exact ⟨rfl, code, (hcurrent.findCode horigin hfind).1, hfrom⟩
  · rw [heq, Exec.wp_ret]
    have hspec := findCode_spec s.uploadedMacroCode iteration method
    rw [hfind] at hspec
    refine ⟨rfl, fun code hexpected => ?_⟩
    rcases hexpected with hwords | ⟨-, base, all, hall, hin⟩
    · rw [hcurrent.present method code hwords] at hspec
      cases hspec.1
    · exact hspec.2 code base ⟨all, hcurrent.present base all hall, hin⟩

/-- **One call more.** -/
theorem Inv.step (h : Inv lib origin s) (words : ℕ → Option Code) (call : Call) :
    ∃ s' held origin', step lib s call = .ret s' held ∧ Inv lib origin' s' ∧
      (Current words origin s.uploadedMacroCode → Allowed words s call → Current (upload words call) origin' s'.uploadedMacroCode) := by
  cases call with
  | clearCode method =>
    exact ⟨_, true, _, rfl, h.clearCode method, fun hcurrent hallowed => hcurrent.clearCode hallowed⟩
  | addCode method data =>
    refine ⟨_, true, _, rfl, h.addCode method data, fun hcurrent hallowed => ?_⟩
    exact hcurrent.addCode (h.unkept method hallowed.1) hallowed.2 data
  | execute method parameters iteration disableMacroHle =>
    rw [MacroEngine.step]
    rcases execute_spec h method parameters iteration disableMacroHle with ⟨code, ran, -, -, heq⟩ |
      ⟨code, uploaded, s', ran, horigin, hfind, hinv, rfl, -, heq⟩ | ⟨-, -, heq⟩
    · exact ⟨s, true, origin, by rw [heq]; rfl, h, fun hcurrent _ => hcurrent⟩
    · exact ⟨s', true, _, by rw [heq]; rfl, hinv, fun hcurrent _ => (hcurrent.findCode horigin hfind).2⟩
    · exact ⟨s, false, origin, by rw [heq]; rfl, h, fun hcurrent _ => hcurrent⟩

/-- Every call of a run leaves no stale program. -/
def AllAllowed (lib : Programs P) (calls : List Call) : Prop :=
  ∀ before call after s held, calls = before ++ call :: after → run lib before = .ret s held →
    Allowed (uploadedWords before) s call

/-- The engine after any calls. -/
theorem run_spec (lib : Programs P) (calls : List Call) : ∃ s held origin, run lib calls = .ret s held ∧
    Inv lib origin s ∧ (AllAllowed lib calls → Current (uploadedWords calls) origin s.uploadedMacroCode) := by
  induction calls using reverseRecOn with
  | nil => exact ⟨empty, true, _, rfl, inv_empty, fun _ => current_empty⟩
  | append_singleton calls call ih =>
    obtain ⟨s, held, origin, hrun, hinv, hcurrent⟩ := ih
    obtain ⟨s', held', origin', hstep, hinv', hcurrent'⟩ := hinv.step (uploadedWords calls) call
    refine ⟨s', held && held', origin', ?_, hinv', fun hallowed => ?_⟩
    · rw [run] at hrun ⊢
      rw [foldlM_append, hrun]
      have hone : [call].foldlM (step lib) s = step lib s call := bind_pure _
      show Exec.bind (.ret s held) (fun s => [call].foldlM (step lib) s) = _
      rw [Exec.bind, hone, hstep]
    · rw [uploadedWords, foldl_append]
      refine hcurrent' (hcurrent fun before c after s₀ held₀ heq => ?_) (hallowed calls call [] s held rfl hrun)
      exact hallowed before c (after ++ [call]) s₀ held₀ (by rw [heq]; simp)

/-- **Macros are up to date when no stale copy is left.**  In a run where code is only cleared or extended at a
base when what was copied to other methods is also in the middle of the words at another base, and only extended
while there is no program for the base itself, every call runs a program that was made from the words uploaded
last, and the addresses in `fast_lookup` are those of live programs that `macro_cache` holds. -/
theorem execute_current (lib : Programs P) (calls : List Call) (hallowed : AllAllowed lib calls) :
    (run lib calls).wp fun s _ => Executes lib (uploadedWords calls) s ∧ FastLookupLive s := by
  obtain ⟨s, held, origin, hrun, hinv, hcurrent⟩ := run_spec lib calls
  rw [hrun, Exec.wp_ret]
  exact ⟨executes hinv (hcurrent hallowed), hinv.fastLookupLive⟩

theorem allAllowed_nil : AllAllowed lib [] := by
  intro before call after s held heq
  simp at heq

theorem allAllowed_concat {calls : List Call} {call : Call} (h : AllAllowed lib calls)
    (hallowed : ∀ s held, run lib calls = .ret s held → Allowed (uploadedWords calls) s call) :
    AllAllowed lib (calls ++ [call]) := by
  intro before c after s held heq hrun
  rcases after.eq_nil_or_concat with rfl | ⟨after, last, rfl⟩
  · obtain ⟨rfl, rfl⟩ := append_singleton_inj.1 heq
    exact hallowed s held hrun
  · rw [concat_eq_append, ← cons_append, ← append_assoc, append_singleton_inj] at heq
    exact h before c after s held heq.1 hrun

/-- The order of the entries. -/
def inOrder : Iteration := ⟨id, fun _ => .refl _⟩

/-- Code is its own program, and there are no replacements. -/
def interpreter : Programs Code := ⟨id, fun _ => 0, fun _ => none⟩

/-- A base whose code was called can be uploaded again. -/
theorem execute_current_reupload :
    (run interpreter [.clearCode 0, .addCode 0 1, .execute 0 [] inOrder false, .clearCode 0, .addCode 0 2]).wp
      fun s _ => Executes interpreter (uploadedWords
        [.clearCode 0, .addCode 0 1, .execute 0 [] inOrder false, .clearCode 0, .addCode 0 2]) s ∧
          FastLookupLive s := by
  refine execute_current interpreter _ ?_
  -- nothing is copied: the only code is that of the base
  have honly : ∀ words (s : MacroEngine Code), (∀ method ∈ s.uploadedMacroCode.keys, method = 0) →
      CopiesElsewhere words s 0 := fun words s hkeys method code hne _ hlookup => by
    have hmem : method ∈ s.uploadedMacroCode := AList.lookup_isSome.1 (by rw [hlookup]; rfl)
    exact absurd (hkeys method (AList.mem_keys.1 hmem)) hne
  refine @allAllowed_concat _ _ [_, _, _, _] _ (@allAllowed_concat _ _ [_, _, _] _ (@allAllowed_concat _ _ [_, _] _
    (@allAllowed_concat _ _ [_] _ (@allAllowed_concat _ _ [] _ allAllowed_nil ?_) ?_) ?_) ?_) ?_ <;>
      rintro s held hrun <;> cases hrun
  · exact honly _ _ (by decide)
  · exact ⟨rfl, honly _ _ (by decide)⟩
  · trivial
  · exact honly _ _ (by decide)
  · exact ⟨rfl, honly _ _ (by decide)⟩

/-- Two words are uploaded at a base, the second is called, and two others are uploaded at the base. -/
def reupload : List Call :=
  [.clearCode 0, .addCode 0 1, .addCode 0 2, .execute 1 [] inOrder false, .clearCode 0, .addCode 0 3, .addCode 0 4]

/-- **A stale copy is run.**  After the base was uploaded again, a call of its second word runs the old one. -/
theorem staleCopy_runs : ∃ s held, run interpreter reupload = .ret s held ∧
    s.execute interpreter 1 [] inOrder false = .ret (s, some ⟨[2], [], 1, true⟩) true ∧
    (∀ code, Expected (uploadedWords reupload) 1 code → code = [4]) ∧
    ¬Executes interpreter (uploadedWords reupload) s := by
  have hexpected : ∀ code, Expected (uploadedWords reupload) 1 code → code = [4] := by
    rintro code (hwords | ⟨-, base, all, hall, hle, hlt, rfl⟩)
    · cases hwords
    · rcases Nat.le_one_iff_eq_zero_or_eq_one.1 hle with rfl | rfl
      · cases hall
        rfl
      · cases hall
  refine ⟨_, _, rfl, rfl, hexpected, fun hexecutes => ?_⟩
  obtain ⟨result, held, heq, hran⟩ := hexecutes 1 [] inOrder false
  cases heq
  obtain ⟨-, code, hcode, hfrom⟩ := hran
  rw [hexpected code hcode] at hfrom
  rcases hfrom with hfrom | hfrom <;> cases hfrom

end MacroEngine
end Tegra
end NXEmu
