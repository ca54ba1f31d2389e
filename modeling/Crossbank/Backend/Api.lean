import Crossbank.Async.Prog
import Crossbank.Bytes
import Crossbank.Error

/-!
# The storage contract

* `KeyRange`, `Op`, `ScanRequest`, `ScanPage` : what a backend is asked for;
* `Req`, `Resp` : the requests a call suspends at, and their answers;
* `Io ρ α` : a call on the memory `ρ`;
* `KeyRange.contains_ofPrefix` : the range of a key prefix holds exactly the keys that begin with it.
-/

namespace Crossbank
open Async

inductive Table where
  | «meta»
  | records
  | chunks
  deriving DecidableEq, Repr

inductive Bound (α : Type) where
  | included (a : α)
  | excluded (a : α)
  | unbounded
  deriving DecidableEq, Repr

def Bound.below : Bound Bytes → Bytes → Bool
  | .unbounded, _ => true
  | .included s, key => (compare s key).isLE
  | .excluded s, key => compare s key = .lt

def Bound.above : Bound Bytes → Bytes → Bool
  | .unbounded, _ => true
  | .included e, key => (compare key e).isLE
  | .excluded e, key => compare key e = .lt

structure KeyRange where
  start : Bound Bytes
  stop : Bound Bytes
  deriving DecidableEq, Repr

namespace KeyRange

def all : KeyRange := ⟨.unbounded, .unbounded⟩

/-- Pop bytes off the end (here: the front of the reversed prefix) until one is not `0xFF`, and
increment that one. -/
def popEnd : Bytes → Option Bytes
  | [] => none
  | last :: rest => if last ≠ 0xFF then some ((last + 1) :: rest).reverse else popEnd rest

def ofPrefix (p : Bytes) : KeyRange :=
  match popEnd p.reverse with
  | some e => ⟨.included p, .excluded e⟩
  | none => ⟨.included p, .unbounded⟩

def contains (r : KeyRange) (key : Bytes) : Bool := r.start.below key && r.stop.above key

end KeyRange

inductive Op where
  | put (table : Table) (key value : Bytes)
  | delete (table : Table) (key : Bytes)
  | deleteRange (table : Table) (range : KeyRange)
  deriving DecidableEq, Repr

def Op.table : Op → Table
  | .put t .. | .delete t _ | .deleteRange t _ => t

inductive Durability where
  | immediate
  | eventual
  deriving DecidableEq, Repr

structure CommitOptions where
  durability : Durability
  deriving DecidableEq, Repr

def CommitOptions.immediate : CommitOptions := ⟨.immediate⟩

def DEFAULT_SCAN_PAGE : Nat := 256

theorem DEFAULT_SCAN_PAGE_pos : 0 < DEFAULT_SCAN_PAGE := by decide

structure ScanRequest where
  table : Table
  range : KeyRange
  reverse : Bool
  limit : Nat
  wantValues : Bool
  deriving DecidableEq, Repr

/-- One page of a scan, and where to resume, or nothing when the range is exhausted. -/
structure ScanPage where
  items : List (Bytes × Option Bytes)
  resume : Option Bytes
  deriving DecidableEq, Repr

/-- What a call suspends at: a call of the backend, the locker's write lock, or (`idle`) the moment
at which the user of a `Writer` goes on with it. -/
inductive Req where
  | get (table : Table) (key : Bytes)
  | getMany (table : Table) (keys : List Bytes)
  | scan (request : ScanRequest)
  | commit (ops : List Op) (options : CommitOptions)
  | flush
  | lock
  | idle
  deriving DecidableEq

@[reducible] def Resp : Req → Type
  | .get .. => Except Error (Option Bytes)
  | .getMany .. => Except Error (List (Option Bytes))
  | .scan _ => Except Error ScanPage
  | .commit .. | .flush => Except Error Unit
  | .lock | .idle => Unit

abbrev Io (ρ α : Type) := Prog Req Resp Error ρ α

/-- How a backend pages, and how many pages of one walk the model follows. -/
structure Backend where
  scanPageSize : Nat
  walkFuel : Nat
  scanPageSize_pos : 0 < scanPageSize

namespace Backend
variable {ρ : Type}

def get (table : Table) (key : Bytes) : Io ρ (Option Bytes) := do
  let answer ← Prog.ask (Req.get table key)
  Prog.ofExcept answer

def getMany (table : Table) (keys : List Bytes) : Io ρ (List (Option Bytes)) := do
  let answer ← Prog.ask (Req.getMany table keys)
  Prog.ofExcept answer

def scan (request : ScanRequest) : Io ρ ScanPage := do
  let answer ← Prog.ask (Req.scan request)
  Prog.ofExcept answer

def commitWith (ops : List Op) (options : CommitOptions) : Io ρ Unit := do
  let answer ← Prog.ask (Req.commit ops options)
  Prog.ofExcept answer

def commit (ops : List Op) : Io ρ Unit := commitWith ops .immediate

def flush : Io ρ Unit := do
  let answer ← Prog.ask Req.flush
  Prog.ofExcept answer

@[simp] theorem commit_eq (ops : List Op) :
    (Backend.commit ops : Io ρ Unit) = Backend.commitWith ops .immediate := rfl

/-! ## Backend calls in a history -/

section
variable {h : List (Event Req Resp ρ)} {q : Req} {d : ρ → ρ} {P : Req → Prop} {R : ρ → ρ → Prop}

@[simp] theorem ends_get {table : Table} {key : Bytes} {r : Except Error (Option Bytes)} :
    Ends (Backend.get table key) h r ↔ h = [.io (.get table key) r] := by
  simp [Backend.get, ends_bind]

@[simp] theorem waits_get {table : Table} {key : Bytes} :
    Waits (Backend.get table key) h q d ↔ h = [] ∧ q = .get table key ∧ d = id := by
  simp [Backend.get, waits_bind]

@[simp] theorem only_get {table : Table} {key : Bytes} :
    (Backend.get table key : Io ρ _).Only P R ↔ P (.get table key) :=
  ⟨fun h => h.1, fun h => ⟨h, fun _ => Prog.only_ofExcept⟩⟩

@[simp] theorem ends_getMany {table : Table} {keys : List Bytes} {r : Except Error (List (Option Bytes))} :
    Ends (Backend.getMany table keys) h r ↔ h = [.io (.getMany table keys) r] := by
  simp [Backend.getMany, ends_bind]

@[simp] theorem waits_getMany {table : Table} {keys : List Bytes} :
    Waits (Backend.getMany table keys) h q d ↔ h = [] ∧ q = .getMany table keys ∧ d = id := by
  simp [Backend.getMany, waits_bind]

@[simp] theorem only_getMany {table : Table} {keys : List Bytes} :
    (Backend.getMany table keys : Io ρ _).Only P R ↔ P (.getMany table keys) :=
  ⟨fun h => h.1, fun h => ⟨h, fun _ => Prog.only_ofExcept⟩⟩

@[simp] theorem ends_scan {request : ScanRequest} {r : Except Error (ScanPage)} :
    Ends (Backend.scan request) h r ↔ h = [.io (.scan request) r] := by
  simp [Backend.scan, ends_bind]

@[simp] theorem waits_scan {request : ScanRequest} :
    Waits (Backend.scan request) h q d ↔ h = [] ∧ q = .scan request ∧ d = id := by
  simp [Backend.scan, waits_bind]

@[simp] theorem only_scan {request : ScanRequest} :
    (Backend.scan request : Io ρ _).Only P R ↔ P (.scan request) :=
  ⟨fun h => h.1, fun h => ⟨h, fun _ => Prog.only_ofExcept⟩⟩

@[simp] theorem ends_commitWith {ops : List Op} {options : CommitOptions} {r : Except Error (Unit)} :
    Ends (Backend.commitWith ops options) h r ↔ h = [.io (.commit ops options) r] := by
  simp [Backend.commitWith, ends_bind]

@[simp] theorem waits_commitWith {ops : List Op} {options : CommitOptions} :
    Waits (Backend.commitWith ops options) h q d ↔ h = [] ∧ q = .commit ops options ∧ d = id := by
  simp [Backend.commitWith, waits_bind]

@[simp] theorem only_commitWith {ops : List Op} {options : CommitOptions} :
    (Backend.commitWith ops options : Io ρ _).Only P R ↔ P (.commit ops options) :=
  ⟨fun h => h.1, fun h => ⟨h, fun _ => Prog.only_ofExcept⟩⟩

@[simp] theorem ends_flush {r : Except Error Unit} :
    Ends Backend.flush h r ↔ h = [.io .flush r] := by
  simp [Backend.flush, ends_bind]

@[simp] theorem waits_flush : Waits Backend.flush h q d ↔ h = [] ∧ q = .flush ∧ d = id := by
  simp [Backend.flush, waits_bind]

@[simp] theorem only_flush : (Backend.flush : Io ρ Unit).Only P R ↔ P .flush :=
  ⟨fun h => h.1, fun h => ⟨h, fun _ => Prog.only_ofExcept⟩⟩

end

end Backend

/-! ## Prefix ranges -/

namespace KeyRange

/-- The successor of every string with the given prefix, computed from the front. -/
def succ : Bytes → Option Bytes
  | [] => none
  | b :: p =>
    match succ p with
    | some e => some (b :: e)
    | none => if b ≠ 0xFF then some [b + 1] else none

theorem succ_append_singleton (p : Bytes) (b : UInt8) :
    succ (p ++ [b]) = if b ≠ 0xFF then some (p ++ [b + 1]) else succ p := by
  induction p with
  | nil => by_cases hb : b = 0xFF <;> simp [succ, hb]
  | cons c p ih =>
    by_cases hb : b = 0xFF
    · subst hb
      simp [succ, ih]
    · simp [succ, ih, hb]

theorem popEnd_reverse (p : Bytes) : popEnd p.reverse = succ p := by
  induction p using List.reverseRecOn with
  | nil => rfl
  | append_singleton p b ih =>
    rw [succ_append_singleton, List.reverse_append, List.reverse_singleton]
    by_cases hb : b = 0xFF <;> simp [popEnd, hb, ih]

theorem lt_succ_byte {b c : UInt8} (hb : b ≠ 0xFF) : compare c (b + 1) = .lt ↔ c ≤ b := by
  have h255 : b.toNat ≠ 255 := fun h => hb (UInt8.toNat_inj.1 h)
  have hlt := b.toNat_lt
  have h1 : (1 : UInt8).toNat = 1 := rfl
  rw [Std.compare_eq_lt, UInt8.lt_iff_toNat_lt, UInt8.le_iff_toNat_le, UInt8.toNat_add, h1,
    Nat.mod_eq_of_lt (by omega)]
  omega

theorem isPrefix_iff (p key : Bytes) :
    p <+: key ↔ (compare p key).isLE ∧ ∀ e, succ p = some e → compare key e = .lt := by
  induction p generalizing key with
  | nil =>
    simp only [List.nil_prefix, succ, true_iff]
    refine ⟨?_, by simp⟩
    cases key <;> rfl
  | cons b p ih =>
    cases key with
    | nil => simp [List.compare_cons_nil]
    | cons c key =>
      rw [List.cons_prefix_cons, List.compare_cons_cons, ih]
      simp only [succ]
      rcases lt_trichotomy b.toNat c.toNat with hlt | heq | hgt
      · have hbc : compare b c = .lt := by
          rw [Std.compare_eq_lt, UInt8.lt_iff_toNat_lt]
          exact hlt
        have hcb : compare c b = .gt := by
          rw [Std.compare_eq_gt, UInt8.lt_iff_toNat_lt]
          exact hlt
        have hne : b ≠ c := by
          rintro rfl
          omega
        simp only [hne, false_and, hbc, false_iff, not_and, not_forall]
        intro _
        cases hs : succ p with
        | some e => exact ⟨b :: e, rfl, by simp [List.compare_cons_cons, hcb]⟩
        | none =>
          have hff : b ≠ 0xFF := by
            rintro rfl
            have := c.toNat_lt
            simp at hlt
            omega
          refine ⟨[b + 1], by simp [hff], ?_⟩
          rw [List.compare_cons_cons]
          have : ¬ compare c (b + 1) = .lt := by
            rw [lt_succ_byte hff, UInt8.le_iff_toNat_le]
            omega
          cases hc : compare c (b + 1) with
          | lt => exact absurd hc this
          | gt => simp
          | eq => cases key <;> simp [List.compare_cons_nil]
      · obtain rfl : b = c := UInt8.toNat_inj.1 heq
        have hbb : compare b b = .eq := Std.ReflCmp.compare_self
        simp only [true_and, hbb, Ordering.eq_then]
        refine and_congr_right fun _ => ?_
        cases hs : succ p with
        | some e => simp [List.compare_cons_cons]
        | none =>
          by_cases hff : b = 0xFF
          · simp [hff]
          · have hlt : compare b (b + 1) = .lt := (lt_succ_byte hff).2 (UInt8.le_refl b)
            simp [hff, List.compare_cons_cons, hlt]
      · have hbc : compare b c = .gt := by
          rw [Std.compare_eq_gt, UInt8.lt_iff_toNat_lt]
          exact hgt
        have hne : b ≠ c := by
          rintro rfl
          omega
        simp [hne, hbc]

theorem contains_ofPrefix (p key : Bytes) : (ofPrefix p).contains key = true ↔ p <+: key := by
  rw [isPrefix_iff, ofPrefix, popEnd_reverse]
  cases succ p with
  | none => simp [contains, Bound.below, Bound.above]
  | some e => simp [contains, Bound.below, Bound.above]

end KeyRange
end Crossbank
