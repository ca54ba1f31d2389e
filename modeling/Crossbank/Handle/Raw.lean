import Crossbank.Deletion
import Crossbank.Handle.Shelf

/-!
# The bytes-level calls of a bank

* `Bank.rawGetMany`, `rawEntries`, `lockerNames` : the calls behind the bulk jobs;
* `Job.prog` : what the service does for each job;
* `Bank.pages` : the loop of every raw listing, and `pages_run`, what it has gathered when it returns;
* `lists_of_keys` : keys that are stored under an order-preserving encoding are listed in order.
-/

namespace Crossbank
open Async

namespace Bank
variable {V : Type} (env : BankEnv)

/-! ## Listings, page by page -/

/-- Page through a range and keep what each entry gives. -/
def pages {α : Type} (table : Table) (limit : Nat) (wantValues : Bool)
    (item : Bytes × Option Bytes → Except Error α) : Nat → KeyRange → List α → Io (Bank V) (List α)
  | 0, _, _ => .stuck
  | fuel + 1, range, acc => do
    let page ← Backend.scan ⟨table, range, false, limit, wantValues⟩
    let found ← Prog.ofExcept (page.items.mapM item)
    match page.resume with
    | some last =>
      pages table limit wantValues item fuel { range with start := .excluded last } (acc ++ found)
    | none => pure (acc ++ found)

def slotValue : Option Bytes → Except Error (Option Bytes)
  | some bytes => (env.bytes.decode env.chain bytes).map some
  | none => .ok none

/-- Read many keys in one backend round trip. -/
def rawGetMany (locker : String) (keys : List String) : Io (Bank V) (List (Option Bytes)) :=
  if keys.isEmpty then pure []
  else do
    let id ← rawLocker env locker
    let stored ← Backend.getMany .records (keys.map (encode id))
    Prog.ofExcept (stored.mapM (slotValue env))

/-- One pair of a listing. A scan that was asked for values and left one out is not listed short. -/
def entryOf (id : LockerId) (item : Bytes × Option Bytes) : Except Error (String × Bytes) := do
  let key ← decode id item.1
  match item.2 with
  | none =>
    .error (.corrupt s!"the backend returned no value for {key.quote} in a scan that asked for values")
  | some stored => do
    let v ← env.bytes.decode env.chain stored
    .ok (key, v)

def rawEntries (locker p : String) : Io (Bank V) (List (String × Bytes)) := do
  let id ← rawLocker env locker
  pages .records env.backend.scanPageSize true (entryOf env id) env.backend.walkFuel
    (prefixRange id p) []

def nameOf (item : Bytes × Option Bytes) : Except Error String :=
  match fromUtf8 (item.1.drop META_LOCKER_PREFIX.length) with
  | some name => .ok name
  | none => .error (.corrupt
    s!"locker name is not UTF-8: {utf8Error (item.1.drop META_LOCKER_PREFIX.length)}")

def lockerNames : Io (Bank V) (List String) :=
  pages .meta 256 false nameOf env.backend.walkFuel (.ofPrefix META_LOCKER_PREFIX) []

end Bank

def Job.prog {V : Type} (env : BankEnv) : Job → Io (Bank V) Answer
  | .get locker key => .value <$> Bank.rawGet env locker key
  | .put locker key value => (fun _ => .done) <$> Bank.rawPut env locker key value
  | .delete locker key => (fun _ => .done) <$> Bank.rawDelete env locker key
  | .keys locker p => .names <$> Bank.rawKeys env locker p
  | .clear locker => (fun _ => .done) <$> Bank.rawClear env locker
  | .getMany locker names => .values <$> Bank.rawGetMany env locker names
  | .putAll locker batch => (fun _ => .done) <$> Bank.rawPutAll env locker batch
  | .deleteAll locker names => (fun _ => .done) <$> Bank.rawDeleteAll env locker names
  | .entries locker p => .pairs <$> Bank.rawEntries env locker p
  | .containsKey locker key => .holds <$> Bank.rawContainsKey env locker key
  | .len locker => .count <$> Bank.rawLen env locker
  | .lockerExists name => .holds <$> Bank.lockerExists name
  | .lockerNames => .names <$> Bank.lockerNames env
  | .deleteLocker name => .holds <$> Bank.deleteLocker env name

namespace Bank

/-! ## What a listing has gathered -/

theorem mapM_eq_ok {α β : Type} {f : α → Except Error β} {l : List α} {l' : List β} :
    l.mapM f = .ok l' ↔ List.Forall₂ (fun a b => f a = .ok b) l l' := by
  induction l generalizing l' with
  | nil =>
    rw [List.mapM_nil, List.forall₂_nil_left_iff]
    exact pure_eq_ok.trans eq_comm
  | cons a l ih =>
    rw [List.mapM_cons, bind_eq_ok]
    constructor
    · rintro ⟨b, hb, hrest⟩
      obtain ⟨bs, hbs, hl⟩ := bind_eq_ok.1 hrest
      obtain rfl := pure_eq_ok.1 hl
      exact .cons hb (ih.1 hbs)
    · intro h
      cases h with
      | cons hb hrest => exact ⟨_, hb, bind_eq_ok.2 ⟨_, ih.2 hrest, pure_eq_ok.2 rfl⟩⟩

theorem exists_of_mem {α β : Type} {R : α → β → Prop} {l : List α} {l' : List β}
    (h : List.Forall₂ R l l') {b : β} (hb : b ∈ l') : ∃ a ∈ l, R a b := by
  induction h with
  | nil => cases hb
  | @cons a b' l l' hab _ ih =>
    rcases List.mem_cons.1 hb with rfl | hb
    · exact ⟨a, List.mem_cons_self, hab⟩
    · obtain ⟨a', ha', hr⟩ := ih hb
      exact ⟨a', List.mem_cons_of_mem _ ha', hr⟩

section
variable {V α : Type} {table : Table} {limit : Nat} {wantValues : Bool}
  {item : Bytes × Option Bytes → Except Error α} {fuel : Nat} {range : KeyRange} {acc l : List α}
  {m m' : Machine Tables (Bank V)}

theorem reads_pages : Reads (pages table limit wantValues item fuel range acc : Io (Bank V) _) := by
  induction fuel generalizing range acc with
  | zero => exact reads_stuck
  | succ fuel ih =>
    unfold pages
    apply reads_scan.bind
    intro page
    apply reads_ofExcept.bind
    intro found
    split
    · exact ih
    · exact reads_pure

/-- A listing that returns has gathered every entry of its range, in order. -/
theorem pages_run (positive : 0 < limit)
    (h : Run Served (pages table limit wantValues item fuel range acc) m (.ok l) m') :
    ∃ found, l = acc ++ found ∧ List.Forall₂ (fun e a => item (shown wantValues e) = .ok a)
      (Tree.inRange (m.dev.get table) range) found := by
  suffices gathered : ∃ found, l = acc ++ found ∧
      ((Tree.inOrder false (m.dev.get table) range).map (shown wantValues)).mapM item = .ok found by
    obtain ⟨found, hl, hmap⟩ := gathered
    refine ⟨found, hl, ?_⟩
    rw [Tree.inOrder, if_neg Bool.false_ne_true, mapM_eq_ok, List.forall₂_map_left_iff] at hmap
    exact hmap
  induction fuel generalizing range acc m with
  | zero => exact absurd h run_stuck
  | succ fuel ih =>
    obtain ⟨page, m₁, hscan, h₁⟩ := run_bind_ok.1 h
    obtain ⟨rfl, hpage⟩ := run_scan.1 hscan
    obtain rfl := hpage page rfl
    obtain ⟨found, m₂, hfound, hrest⟩ := run_bind_ok.1 h₁
    obtain ⟨hmap, rfl⟩ := run_ofExcept.1 hfound
    dsimp only at hrest
    split at hrest
    · next last hresume =>
      have hall := (scanTree_next hresume).1
      dsimp only at hall
      obtain ⟨more, hl, hmore⟩ := ih hrest
      refine ⟨found ++ more, by rw [hl, List.append_assoc], ?_⟩
      rw [hall, List.mapM_append]
      exact bind_eq_ok.2 ⟨found, hmap.symm, bind_eq_ok.2 ⟨more, hmore, pure_eq_ok.2 rfl⟩⟩
    · next hresume =>
      have hall := scanTree_last positive hresume
      dsimp only at hall
      refine ⟨found, Except.ok.inj (run_pure.1 hrest).1, ?_⟩
      rw [← hall]
      exact hmap.symm

theorem keysPages_eq (id : LockerId) {acc : List String} :
    (keysPages id fuel range acc : Io (Bank V) _) =
      pages .records 256 false (fun item => decode id item.1) fuel range acc := by
  induction fuel generalizing range acc with
  | zero => rfl
  | succ fuel ih =>
    refine bind_congr fun page => bind_congr fun keys => ?_
    cases page.resume with
    | none => rfl
    | some last => exact ih

theorem lenPages_run {env : BankEnv} {total n : Nat}
    (h : Run Served (lenPages env fuel range total) m (.ok n) m') :
    n = total + (Tree.inRange m.dev.records range).length := by
  suffices counted : n = total + ((Tree.inOrder false m.dev.records range).map (shown false)).length by
    rw [counted, List.length_map, Tree.inOrder, if_neg Bool.false_ne_true]
  induction fuel generalizing range total m with
  | zero => exact absurd h run_stuck
  | succ fuel ih =>
    obtain ⟨page, m₁, hscan, h₁⟩ := run_bind_ok.1 h
    obtain ⟨rfl, hpage⟩ := run_scan.1 hscan
    obtain rfl := hpage page rfl
    dsimp only at h₁
    split at h₁
    · next last hresume =>
      have hall := (scanTree_next hresume).1
      dsimp only at hall
      have hrest := ih h₁
      rw [show m₁.dev.records = m₁.dev.get .records from rfl] at hrest ⊢
      rw [hall, List.length_append, hrest, ← Nat.add_assoc]
      rfl
    · next hresume =>
      have hall := scanTree_last env.backend.scanPageSize_pos hresume
      dsimp only at hall
      rw [show m₁.dev.records = m₁.dev.get .records from rfl, ← hall]
      exact Except.ok.inj (run_pure.1 h₁).1

theorem reads_lenPages {env : BankEnv} {total : Nat} :
    Reads (lenPages env fuel range total : Io (Bank V) Nat) := by
  induction fuel generalizing range total with
  | zero => exact reads_stuck
  | succ fuel ih =>
    unfold lenPages
    apply reads_scan.bind
    intro page
    split
    · exact ih
    · exact reads_pure

end

/-! ## Listings of strings -/

section
variable {tree : Tree} {range : KeyRange} {S : Set String} {l : List String}

/-- Stored keys are listed in order, where their encoding keeps the order of their bytes. -/
theorem lists_of_keys (enc : String → Bytes)
    (mono : ∀ a b, compare (enc a) (enc b) = compare (asBytes a) (asBytes b))
    (stored : l.map enc = (Tree.inRange tree range).map Prod.fst)
    (mem : ∀ s, s ∈ S ↔ tree[enc s]? ≠ none ∧ range.contains (enc s) = true) : Enumerates l S where
  ascending := by
    have asc : (l.map enc).Pairwise fun a b => compare a b = .lt := by
      rw [stored, List.pairwise_map]
      exact Tree.inRange_ascending tree range
    rw [List.pairwise_map] at asc
    exact asc.imp fun {a b} hlt => (mono a b).symm.trans hlt
  mem s := by
    have inj {a b : String} (h : enc a = enc b) : a = b := by
      have hcmp := mono a b
      have same : compare (enc b) (enc b) = .eq := Std.ReflCmp.compare_self
      rw [h, same] at hcmp
      exact asBytes_inj.1 (Std.LawfulEqCmp.eq_of_compare hcmp.symm)
    have listed : s ∈ l ↔ enc s ∈ (Tree.inRange tree range).map Prod.fst := by
      rw [← stored, List.mem_map]
      constructor
      · intro hs
        exact ⟨s, hs, rfl⟩
      · rintro ⟨t, ht, heq⟩
        exact inj heq ▸ ht
    rw [listed, mem, List.mem_map, Option.ne_none_iff_exists']
    constructor
    · rintro ⟨e, he, heq⟩
      obtain ⟨hget, hin⟩ := Tree.mem_inRange.1 he
      exact ⟨⟨e.2, heq ▸ hget⟩, heq ▸ hin⟩
    · rintro ⟨⟨v, hv⟩, hin⟩
      exact ⟨(enc s, v), Tree.mem_inRange.2 ⟨hv, hin⟩, rfl⟩

end

theorem decode_eq_ok {id : LockerId} {encoded : Bytes} {key : String} :
    decode id encoded = .ok key ↔ encoded = encode id key := by
  constructor
  · intro h
    unfold decode at h
    obtain ⟨rest, hrest, hkey⟩ := bind_eq_ok.1 h
    unfold decodeBytes at hrest
    split at hrest
    · cases hrest
    · next hlen =>
      dsimp only at hrest
      split at hrest
      · cases hrest
      · next hid =>
        obtain rfl := Except.ok.inj hrest
        split at hkey
        · next key' hutf =>
          obtain rfl := Except.ok.inj hkey
          have hfound : UInt32.ofNat (beNat (encoded.take PREFIX_LEN)) = id := not_not.1 hid
          have htake : (encoded.take PREFIX_LEN).length = 4 := by
            rw [List.length_take, PREFIX_LEN]
            rw [PREFIX_LEN] at hlen
            omega
          rw [encode, encodeBytes, ← asBytes_of_fromUtf8 hutf, ← hfound,
            u32be_ofNat_beNat htake, List.take_append_drop]
        · cases hkey
  · rintro rfl
    unfold decode encode
    rw [decodeBytes_encodeBytes]
    dsimp only [bind, Except.bind]
    rw [fromUtf8_asBytes]

end Bank
end Crossbank
