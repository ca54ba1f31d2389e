import Crossbank.Backend.Memory

/-!
# Two native backends

* `BackendCall`, `Reply` : the calls of a backend, and their answers;
* `MemoryBackend.step` : the backend in memory;
* `Redb`, `Redb.Lawful` : what is used of the database, and that its tables are ordered maps;
* `RedbBackend.step` : the backend on the database;
* `interchangeable_iff` : the two answer alike, and answer as closed once closed, exactly when nothing
  asks for a flush or for the usage after a close.
-/

namespace Crossbank

inductive BackendCall where
  | get (table : Table) (key : Bytes)
  | getMany (table : Table) (keys : List Bytes)
  | scan (request : ScanRequest)
  | commit (ops : List Op)
  | commitWith (ops : List Op) (options : CommitOptions)
  | usage
  | flush
  | close
  deriving DecidableEq

structure Usage where
  used : Nat
  available : Option Nat
  persisted : Bool
  deriving DecidableEq

inductive Reply where
  | value (r : Except Error (Option Bytes))
  | values (r : Except Error (List (Option Bytes)))
  | page (r : Except Error ScanPage)
  | usage (r : Except Error (Option Usage))
  | done (r : Except Error Unit)

namespace Reply

def Refused (reply : Reply) : Prop :=
  reply = .value (.error .closed) ∨ reply = .values (.error .closed) ∨
  reply = .page (.error .closed) ∨ reply = .usage (.error .closed) ∨ reply = .done (.error .closed)

def Alike : Reply → Reply → Prop
  | .usage (.ok a), .usage (.ok b) => a.isSome = b.isSome
  | a, b => a = b

end Reply

/-! ## In memory -/

structure MemoryBackend where
  tables : Tables
  closed : Bool
  deriving DecidableEq

namespace MemoryBackend

def new : MemoryBackend := ⟨.empty, false⟩

def withTables {α : Type} (b : MemoryBackend) (f : Tables → α × Tables) :
    Except Error α × MemoryBackend :=
  if b.closed then (.error .closed, b)
  else
    let (a, tables) := f b.tables
    (.ok a, { b with tables := tables })

def sizeOfTree (tree : Tree) : Nat := (tree.toList.map fun e => e.1.length + e.2.length).sum

def get (table : Table) (key : Bytes) (b : MemoryBackend) : Except Error (Option Bytes) × MemoryBackend :=
  b.withTables fun t => (t.lookup table key, t)

def getMany (table : Table) (keys : List Bytes) (b : MemoryBackend) :
    Except Error (List (Option Bytes)) × MemoryBackend :=
  b.withTables fun t => (keys.map (t.lookup table), t)

def scan (request : ScanRequest) (b : MemoryBackend) : Except Error ScanPage × MemoryBackend :=
  b.withTables fun t => (scanTree (t.get request.table) request, t)

def commit (ops : List Op) (b : MemoryBackend) : Except Error Unit × MemoryBackend :=
  b.withTables fun t => ((), t.commit ops)

def usage (b : MemoryBackend) : Except Error (Option Usage) × MemoryBackend :=
  b.withTables fun t =>
    (some ⟨sizeOfTree t.metadata + sizeOfTree t.records + sizeOfTree t.chunks, none, false⟩, t)

def flush (b : MemoryBackend) : Except Error Unit × MemoryBackend := (.ok (), b)

def close (b : MemoryBackend) : Except Error Unit × MemoryBackend :=
  (.ok (), if b.closed then b else ⟨.empty, true⟩)

def step (b : MemoryBackend) : BackendCall → Reply × MemoryBackend
  | .get table key => (b.get table key).map .value id
  | .getMany table keys => (b.getMany table keys).map .values id
  | .scan request => (b.scan request).map .page id
  | .commit ops => (b.commit ops).map .done id
  -- The default of the trait: the options are for backends that can honour them.
  | .commitWith ops _ => (b.commit ops).map .done id
  | .usage => b.usage.map .usage id
  | .flush => b.flush.map .done id
  | .close => b.close.map .done id

def run (b : MemoryBackend) : List BackendCall → List Reply
  | [] => []
  | call :: calls => (b.step call).1 :: run (b.step call).2 calls

end MemoryBackend

/-! ## On the database -/

inductive TableError where
  | tableDoesNotExist
  | other (message : String)

/-- What is used of the database: read transactions are snapshots, and a write transaction is a value
that a commit turns into the next state. -/
structure Redb (Db Txn : Type) where
  create : Except String Db
  beginRead : Db → Except String Unit
  openTable : Db → Table → Except TableError Unit
  get : Db → Table → Bytes → Except String (Option Bytes)
  /-- Ascending; an entry may fail to be read. -/
  range : Db → Table → KeyRange → Except String (List (Except String (Bytes × Bytes)))
  beginWrite : Db → Except String Txn
  setDurability : Durability → Txn → Except String Txn
  /-- Creates the table where there is none. -/
  openWrite : Table → Txn → Except String Txn
  insert : Table → Bytes → Bytes → Txn → Except String Txn
  remove : Table → Bytes → Txn → Except String Txn
  retainIn : Table → KeyRange → (Bytes → Bytes → Bool) → Txn → Except String Txn
  commit : Txn → Except String Db
  /-- The size of the file, which is there after the handle is gone. -/
  fileLen : Nat

def mentions (message text : String) : Bool := 1 < (message.splitOn text).length

def backendErr (context message : String) : Error :=
  if mentions message "No space left" ∨ mentions message "ENOSPC" then .quotaExceeded 0 (some 0)
  else .backend s!"{context}: {message}"

/-- A step of the database, with what was being done when it fails. -/
def during {α : Type} (context : String) (x : Except String α) : Except Error α :=
  x.mapError (backendErr context)

structure RedbBackend (Db : Type) where
  db : Option Db

def Table.all : List Table := [.meta, .records, .chunks]

namespace RedbBackend
section
variable {Db Txn α : Type} (redb : Redb Db Txn)

def withDb (b : RedbBackend Db) (f : Db → Except Error (α × Db)) : Except Error α × RedbBackend Db :=
  match b.db with
  | none => (.error .closed, b)
  | some db =>
    match f db with
    | .ok (a, db) => (.ok a, ⟨some db⟩)
    | .error e => (.error e, b)

def anyTableMissing (db : Db) : Except Error Bool := do
  during "beginning the table probe" (redb.beginRead db)
  let rec probe : List Table → Except Error Bool
    | [] => .ok false
    | table :: rest =>
      match redb.openTable db table with
      | .ok () => probe rest
      | .error .tableDoesNotExist => .ok true
      | .error (.other e) => .error (backendErr "probing for a table" e)
  probe Table.all

def createTables (db : Db) : Except Error Db := do
  if !(← anyTableMissing redb db) then pure db
  else do
    let txn ← during "beginning the setup transaction" (redb.beginWrite db)
    let txn ← Table.all.foldlM
      (fun txn table => during "creating a table" (redb.openWrite table txn)) txn
    during "committing table creation" (redb.commit txn)

def «open» : Except Error (RedbBackend Db) := do
  let db ← during "opening the database" redb.create
  let db ← createTables redb db
  pure ⟨some db⟩

def readOne (table : Table) (key : Bytes) (db : Db) : Except Error (Option Bytes) := do
  during "beginning a read" (redb.beginRead db)
  match redb.openTable db table with
  | .ok () => during "reading a key" (redb.get db table key)
  | .error .tableDoesNotExist => pure none
  | .error (.other e) => throw (backendErr "opening a table for reading" e)

def readMany (table : Table) (keys : List Bytes) (db : Db) : Except Error (List (Option Bytes)) := do
  during "beginning a batch read" (redb.beginRead db)
  match redb.openTable db table with
  | .ok () => keys.mapM fun key => during "reading a key" (redb.get db table key)
  | .error .tableDoesNotExist => pure (keys.map fun _ => none)
  | .error (.other e) => throw (backendErr "opening a table for batch reading" e)

/-- Collect entries until the page is full. `resume` is the last key collected. -/
def collectPage (limit : Nat) (wantValues : Bool) :
    List (Except String (Bytes × Bytes)) → ScanPage → Except Error ScanPage
  | [], page => .ok page
  | entry :: rest, page =>
    if limit ≤ page.items.length then .ok page
    else
      match entry with
      | .error e => .error (backendErr "reading a range entry" e)
      | .ok (key, value) =>
        collectPage limit wantValues rest
          ⟨page.items ++ [(key, if wantValues then some value else none)], some key⟩

def scanPage (request : ScanRequest) (db : Db) : Except Error ScanPage := do
  during "beginning a scan" (redb.beginRead db)
  match redb.openTable db request.table with
  | .ok () => do
    let entries ← during "opening a range" (redb.range db request.table request.range)
    let entries := if request.reverse then entries.reverse else entries
    let page ← collectPage request.limit request.wantValues entries ⟨[], none⟩
    pure { page with resume := if page.items.length < request.limit then none else page.resume }
  | .error .tableDoesNotExist => pure ⟨[], none⟩
  | .error (.other e) => throw (backendErr "opening a table for scanning" e)

def applyOp (txn : Txn) : Op → Except Error Txn
  | .put table key value => do
    let txn ← during "opening a table for writing" (redb.openWrite table txn)
    during "inserting a key" (redb.insert table key value txn)
  | .delete table key => do
    let txn ← during "opening a table for deletion" (redb.openWrite table txn)
    during "removing a key" (redb.remove table key txn)
  | .deleteRange table range => do
    let txn ← during "opening a table for range deletion" (redb.openWrite table txn)
    during "deleting a range" (redb.retainIn table range (fun _ _ => false) txn)

/-- Apply every op in one transaction, or none of them. -/
def applyOps (ops : List Op) (durability : Durability) (db : Db) : Except Error (Unit × Db) := do
  let txn ← during "beginning a write" (redb.beginWrite db)
  let txn ← during "setting durability" (redb.setDurability durability txn)
  let txn ← ops.foldlM (applyOp redb) txn
  let db ← during "committing" (redb.commit txn)
  pure ((), db)

def reading (b : RedbBackend Db) (f : Db → Except Error α) : Except Error α × RedbBackend Db :=
  b.withDb fun db => (f db).map fun a => (a, db)

def step (b : RedbBackend Db) : BackendCall → Reply × RedbBackend Db
  | .get table key => (b.reading (readOne redb table key)).map .value id
  | .getMany table keys => (b.reading (readMany redb table keys)).map .values id
  | .scan request => (b.reading (scanPage redb request)).map .page id
  | .commit ops => (b.withDb (applyOps redb ops .immediate)).map .done id
  | .commitWith ops options => (b.withDb (applyOps redb ops options.durability)).map .done id
  | .usage => (.usage (.ok (some ⟨redb.fileLen, none, true⟩)), b)
  -- An empty commit that is durable forces out those that were not.
  | .flush => (b.withDb (applyOps redb [] .immediate)).map .done id
  | .close => (.done (.ok ()), ⟨none⟩)

def run (b : RedbBackend Db) : List BackendCall → List Reply
  | [] => []
  | call :: calls => (b.step redb call).1 :: run (b.step redb call).2 calls

end
end RedbBackend

/-! ## Ordered maps with atomic write transactions -/

/-- The start is not above the end, and the ends are not equal and both excluded. -/
def KeyRange.Proper (range : KeyRange) : Prop :=
  match range.start, range.stop with
  | .unbounded, _ | _, .unbounded => True
  | .excluded s, .excluded e => compare s e = .lt
  | .included s, .included e | .included s, .excluded e | .excluded s, .included e =>
    (compare s e).isLE = true

/-- The tables behave as ordered maps: `view` is what a database holds, and `pending` what a write
transaction would leave; a table that has not been created is `none`. -/
structure Redb.Lawful {Db Txn : Type} (redb : Redb Db Txn) (view : Db → Table → Option Tree)
    (pending : Txn → Table → Option Tree) : Prop where
  create : ∃ db, redb.create = .ok db ∧ ∀ table, view db table = none
  beginRead : ∀ db, redb.beginRead db = .ok ()
  openTable : ∀ db table, redb.openTable db table =
    if (view db table).isSome then .ok () else .error .tableDoesNotExist
  get : ∀ db table tree key, view db table = some tree → redb.get db table key = .ok tree[key]?
  range : ∀ db table tree (r : KeyRange), view db table = some tree → r.Proper →
    redb.range db table r = .ok ((Tree.inRange tree r).map .ok)
  beginWrite : ∀ db, ∃ txn, redb.beginWrite db = .ok txn ∧ pending txn = view db
  setDurability : ∀ d txn, ∃ txn', redb.setDurability d txn = .ok txn' ∧ pending txn' = pending txn
  openWrite : ∀ table txn, ∃ txn', redb.openWrite table txn = .ok txn' ∧
    pending txn' = Function.update (pending txn) table (some ((pending txn table).getD ∅))
  insert : ∀ table key value txn tree, pending txn table = some tree →
    ∃ txn', redb.insert table key value txn = .ok txn' ∧
      pending txn' = Function.update (pending txn) table (some (tree.insert key value))
  remove : ∀ table key txn tree, pending txn table = some tree →
    ∃ txn', redb.remove table key txn = .ok txn' ∧
      pending txn' = Function.update (pending txn) table (some (tree.erase key))
  retainIn : ∀ table r keep txn tree, pending txn table = some tree →
    ∃ txn', redb.retainIn table r keep txn = .ok txn' ∧
      pending txn' = Function.update (pending txn) table
        (some (tree.filter fun key value => !r.contains key || keep key value))
  commit : ∀ txn, ∃ db, redb.commit txn = .ok db ∧ view db = pending txn

/-! ## Interchangeable -/

def BackendCall.Proper : BackendCall → Prop
  | .scan request => request.range.Proper
  | _ => True

/-- Once closed, every call but a close is refused. -/
def Obeys : Bool → List BackendCall → List Reply → Prop
  | _, [], [] => True
  | closed, call :: calls, reply :: replies =>
    (closed = true → call ≠ .close → reply.Refused) ∧ Obeys (closed || call = .close) calls replies
  | _, _, _ => False

/-- Once closed, nothing asks for a flush or for the usage. -/
def Quiet : Bool → List BackendCall → Prop
  | _, [] => True
  | closed, call :: calls =>
    (closed = true → call ≠ .flush ∧ call ≠ .usage) ∧ Quiet (closed || call = .close) calls

/-- The backends answer alike, and both answer as closed once they are. -/
def Interchangeable {Db Txn : Type} (redb : Redb Db Txn) (closed : Bool) (m : MemoryBackend)
    (r : RedbBackend Db) (calls : List BackendCall) : Prop :=
  List.Forall₂ Reply.Alike (m.run calls) (r.run redb calls) ∧
  Obeys closed calls (m.run calls) ∧ Obeys closed calls (r.run redb calls)

def SameContents {Db : Type} (view : Db → Table → Option Tree) (m : MemoryBackend)
    (r : RedbBackend Db) : Prop :=
  m.closed = false ∧ ∃ db, r.db = some db ∧ ∀ table, view db table = some (m.tables.get table)

/-! ## One call on open backends -/

theorem Tables.get_modify (t : Tables) (table other : Table) (f : Tree → Tree) :
    (t.modify table f).get other = if other = table then f (t.get other) else t.get other := by
  cases table <;> cases other <;> rfl

namespace RedbBackend
section
variable {Db Txn : Type} {redb : Redb Db Txn} {view : Db → Table → Option Tree}
  {pending : Txn → Table → Option Tree} (laws : redb.Lawful view pending) {db : Db} {txn : Txn}
  {table : Table} {tree : Tree} {t : Tables}

theorem during_ok {α : Type} (context : String) (a : α) : during context (.ok a) = .ok a := rfl

include laws

theorem openTable_ok (h : view db table = some tree) : redb.openTable db table = .ok () := by
  rw [laws.openTable, h]
  rfl

theorem readOne_ok (h : view db table = some tree) (key : Bytes) :
    readOne redb table key db = .ok tree[key]? := by
  unfold readOne
  rw [laws.beginRead, openTable_ok laws h, laws.get db table tree key h]
  rfl

theorem readMany_ok (h : view db table = some tree) (keys : List Bytes) :
    readMany redb table keys db = .ok (keys.map fun key => tree[key]?) := by
  have hkeys : (keys.mapM fun key => during "reading a key" (redb.get db table key)) =
      .ok (keys.map fun key => tree[key]?) := by
    induction keys with
    | nil => rfl
    | cons key keys ih =>
      rw [List.mapM_cons, laws.get db table tree key h, during_ok, ih]
      rfl
  unfold readMany
  rw [laws.beginRead, openTable_ok laws h, during_ok]
  exact hkeys

omit laws in
theorem collectPage_ok (limit : Nat) (wantValues : Bool) (entries : List (Bytes × Bytes))
    (page : ScanPage) : collectPage limit wantValues (entries.map .ok) page =
      let taken := entries.take (limit - page.items.length)
      .ok ⟨page.items ++ taken.map (shown wantValues), (taken.getLast?.map Prod.fst).or page.resume⟩ := by
  induction entries generalizing page with
  | nil => simp [collectPage]
  | cons entry entries ih =>
    rw [List.map_cons, collectPage]
    split
    · next hfull =>
      have hnone : limit - page.items.length = 0 := by omega
      simp [hnone]
    · next hroom =>
      obtain ⟨n, hn⟩ : ∃ n, limit - page.items.length = n + 1 :=
        ⟨limit - page.items.length - 1, by omega⟩
      have hrest : limit - (page.items.length + 1) = n := by omega
      obtain ⟨key, value⟩ := entry
      rw [ih]
      simp only [List.length_append, List.length_singleton, hrest, hn, List.take_succ_cons,
        List.map_cons, List.append_assoc, List.singleton_append, List.getLast?_cons, shown]
      cases (entries.take n).getLast? <;> rfl

theorem scanPage_ok {request : ScanRequest} (h : view db request.table = some tree)
    (proper : request.range.Proper) : scanPage redb request db = .ok (scanTree tree request) := by
  have hentries : (if request.reverse then ((Tree.inRange tree request.range).map
        (Except.ok : Bytes × Bytes → Except String (Bytes × Bytes))).reverse
      else (Tree.inRange tree request.range).map .ok) =
      (Tree.inOrder request.reverse tree request.range).map .ok := by
    unfold Tree.inOrder
    split
    · rw [List.map_reverse]
    · rfl
  have hpage := collectPage_ok request.limit request.wantValues
    (Tree.inOrder request.reverse tree request.range) ⟨[], none⟩
  unfold scanPage
  rw [laws.beginRead, openTable_ok laws h, laws.range db request.table tree request.range h proper]
  simp only [during_ok]
  show (collectPage request.limit request.wantValues (if request.reverse then _ else _) ⟨[], none⟩ >>=
    _) = _
  rw [hentries, hpage]
  simp only [scanTree, List.length_nil, Nat.sub_zero, List.nil_append, Option.or_none]
  show Except.ok _ = Except.ok _
  simp

omit laws in
/-- What a write transaction would leave is what a store holds. -/
def Follows (pending : Txn → Table → Option Tree) (txn : Txn) (t : Tables) : Prop :=
  ∀ table, pending txn table = some (t.get table)

omit laws in
theorem follows_modify {txn' : Txn} {f : Tree → Tree} (h : Follows pending txn t)
    (hnew : pending txn' = Function.update (pending txn) table (some (f (t.get table)))) :
    Follows pending txn' (t.modify table f) := by
  intro other
  rw [hnew, Tables.get_modify]
  by_cases hother : other = table
  · subst hother
    rw [Function.update_self, if_pos rfl]
  · rw [Function.update_of_ne hother, if_neg hother]
    exact h other

theorem openWrite_ok (h : Follows pending txn t) (table : Table) :
    ∃ txn', redb.openWrite table txn = .ok txn' ∧ Follows pending txn' t := by
  obtain ⟨txn', hopen, hnew⟩ := laws.openWrite table txn
  refine ⟨txn', hopen, ?_⟩
  rw [h table, Option.getD_some] at hnew
  have hsame := follows_modify (f := id) h hnew
  have hid : t.modify table id = t := by cases table <;> rfl
  rwa [hid] at hsame

theorem applyOp_ok (h : Follows pending txn t) (op : Op) :
    ∃ txn', applyOp redb txn op = .ok txn' ∧ Follows pending txn' (t.apply op) := by
  cases op with
  | put table key value =>
    obtain ⟨txn₁, hopen, h₁⟩ := openWrite_ok laws h table
    obtain ⟨txn₂, hinsert, hnew⟩ := laws.insert table key value txn₁ _ (h₁ table)
    refine ⟨txn₂, ?_, follows_modify h₁ hnew⟩
    rw [applyOp, hopen, during_ok]
    show during _ (redb.insert table key value txn₁) = _
    rw [hinsert, during_ok]
  | delete table key =>
    obtain ⟨txn₁, hopen, h₁⟩ := openWrite_ok laws h table
    obtain ⟨txn₂, hremove, hnew⟩ := laws.remove table key txn₁ _ (h₁ table)
    refine ⟨txn₂, ?_, follows_modify h₁ hnew⟩
    rw [applyOp, hopen, during_ok]
    show during _ (redb.remove table key txn₁) = _
    rw [hremove, during_ok]
  | deleteRange table range =>
    obtain ⟨txn₁, hopen, h₁⟩ := openWrite_ok laws h table
    obtain ⟨txn₂, hretain, hnew⟩ := laws.retainIn table range (fun _ _ => false) txn₁ _ (h₁ table)
    simp only [Bool.or_false] at hnew
    refine ⟨txn₂, ?_, follows_modify h₁ hnew⟩
    rw [applyOp, hopen, during_ok]
    show during _ (redb.retainIn table range (fun _ _ => false) txn₁) = _
    rw [hretain, during_ok]

theorem foldlM_applyOp_ok (ops : List Op) (h : Follows pending txn t) :
    ∃ txn', ops.foldlM (applyOp redb) txn = .ok txn' ∧ Follows pending txn' (t.commit ops) := by
  induction ops generalizing txn t with
  | nil => exact ⟨txn, rfl, h⟩
  | cons op ops ih =>
    obtain ⟨txn₁, hop, h₁⟩ := applyOp_ok laws h op
    obtain ⟨txn₂, hops, h₂⟩ := ih h₁
    refine ⟨txn₂, ?_, h₂⟩
    rw [List.foldlM_cons, hop]
    exact hops

theorem applyOps_ok (ops : List Op) (durability : Durability)
    (h : ∀ table, view db table = some (t.get table)) :
    ∃ db', applyOps redb ops durability db = .ok ((), db') ∧
      ∀ table, view db' table = some ((t.commit ops).get table) := by
  obtain ⟨txn₁, hbegin, hview⟩ := laws.beginWrite db
  obtain ⟨txn₂, hset, hsame⟩ := laws.setDurability durability txn₁
  have hfollows : Follows pending txn₂ t := fun table => by rw [hsame, hview, h table]
  obtain ⟨txn₃, hops, hafter⟩ := foldlM_applyOp_ok laws ops hfollows
  obtain ⟨db', hcommit, hnew⟩ := laws.commit txn₃
  refine ⟨db', ?_, fun table => by rw [hnew, hafter table]⟩
  unfold applyOps
  rw [hbegin, during_ok]
  show (during _ (redb.setDurability durability txn₁) >>= _) = _
  rw [hset, during_ok]
  show (ops.foldlM (applyOp redb) txn₂ >>= _) = _
  rw [hops]
  show (during _ (redb.commit txn₃) >>= _) = _
  rw [hcommit, during_ok]
  rfl

end
end RedbBackend

/-! ## Runs -/

section
variable {Db Txn : Type} {redb : Redb Db Txn} {view : Db → Table → Option Tree}
  {pending : Txn → Table → Option Tree} {m : MemoryBackend} {r : RedbBackend Db}
  {call : BackendCall} {calls : List BackendCall}

theorem Reply.alike_refl (reply : Reply) : reply.Alike reply := by
  cases reply with
  | usage x => cases x <;> rfl
  | value x => rfl
  | values x => rfl
  | page x => rfl
  | done x => rfl

/-- A call on open backends over the same contents: they answer alike, and stay so unless the call
closes them. -/
theorem step_same (laws : redb.Lawful view pending) (same : SameContents view m r)
    (proper : call.Proper) (open_ : call ≠ .close) :
    (m.step call).1.Alike (r.step redb call).1 ∧ SameContents view (m.step call).2 (r.step redb call).2 := by
  obtain ⟨tables, closed⟩ := m
  obtain ⟨handle⟩ := r
  obtain ⟨hopen, db, hdb, hview⟩ := same
  obtain rfl : closed = false := hopen
  obtain rfl : handle = some db := hdb
  have hsame : SameContents view ⟨tables, false⟩ ⟨some db⟩ := ⟨rfl, db, rfl, hview⟩
  have hcommit (ops : List Op) (durability : Durability) :
      ∃ db', RedbBackend.applyOps redb ops durability db = .ok ((), db') ∧
        SameContents view ⟨tables.commit ops, false⟩ ⟨some db'⟩ := by
    obtain ⟨db', hops, hnew⟩ := RedbBackend.applyOps_ok laws ops durability hview
    exact ⟨db', hops, rfl, db', rfl, hnew⟩
  cases call with
  | get table key =>
    have hread : (⟨some db⟩ : RedbBackend Db).reading (RedbBackend.readOne redb table key) =
        (.ok (tables.lookup table key), ⟨some db⟩) := by
      unfold RedbBackend.reading RedbBackend.withDb
      dsimp only
      rw [RedbBackend.readOne_ok laws (hview table)]
      rfl
    rw [RedbBackend.step, hread]
    exact ⟨rfl, hsame⟩
  | getMany table keys =>
    have hread : (⟨some db⟩ : RedbBackend Db).reading (RedbBackend.readMany redb table keys) =
        (.ok (keys.map (tables.lookup table)), ⟨some db⟩) := by
      unfold RedbBackend.reading RedbBackend.withDb
      dsimp only
      rw [RedbBackend.readMany_ok laws (hview table)]
      rfl
    rw [RedbBackend.step, hread]
    exact ⟨rfl, hsame⟩
  | scan request =>
    have hread : (⟨some db⟩ : RedbBackend Db).reading (RedbBackend.scanPage redb request) =
        (.ok (scanTree (tables.get request.table) request), ⟨some db⟩) := by
      unfold RedbBackend.reading RedbBackend.withDb
      dsimp only
      rw [RedbBackend.scanPage_ok laws (hview request.table) proper]
      rfl
    rw [RedbBackend.step, hread]
    exact ⟨rfl, hsame⟩
  | commit ops =>
    obtain ⟨db', hops, hnew⟩ := hcommit ops .immediate
    have hwrite : (⟨some db⟩ : RedbBackend Db).withDb (RedbBackend.applyOps redb ops .immediate) =
        (.ok (), ⟨some db'⟩) := by
      unfold RedbBackend.withDb
      dsimp only
      rw [hops]
    rw [RedbBackend.step, hwrite]
    exact ⟨rfl, hnew⟩
  | commitWith ops options =>
    obtain ⟨db', hops, hnew⟩ := hcommit ops options.durability
    have hwrite : (⟨some db⟩ : RedbBackend Db).withDb
        (RedbBackend.applyOps redb ops options.durability) = (.ok (), ⟨some db'⟩) := by
      unfold RedbBackend.withDb
      dsimp only
      rw [hops]
    rw [RedbBackend.step, hwrite]
    exact ⟨rfl, hnew⟩
  | usage => exact ⟨rfl, hsame⟩
  | flush =>
    obtain ⟨db', hops, hnew⟩ := hcommit [] .immediate
    have hwrite : (⟨some db⟩ : RedbBackend Db).withDb (RedbBackend.applyOps redb [] .immediate) =
        (.ok (), ⟨some db'⟩) := by
      unfold RedbBackend.withDb
      dsimp only
      rw [hops]
    rw [RedbBackend.step, hwrite]
    exact ⟨rfl, hnew⟩
  | close => exact absurd rfl open_

/-- A call on closed backends: both refuse it, or close again, unless it is a flush, which the
backend in memory answers, or asks for the usage, which the database's answers. -/
theorem step_closed (m_closed : m.closed = true) (r_closed : r.db = none) :
    (m.step call).2 = m ∧ (r.step redb call).2 = r ∧
    if call = .flush then ¬ (m.step call).1.Refused
    else if call = .usage then ¬ (r.step redb call).1.Refused
    else (m.step call).1 = (r.step redb call).1 ∧ (call ≠ .close → (m.step call).1.Refused) := by
  obtain ⟨tables, closed⟩ := m
  obtain ⟨handle⟩ := r
  obtain rfl : closed = true := m_closed
  obtain rfl : handle = none := r_closed
  cases call with
  | get table key => exact ⟨rfl, rfl, rfl, fun _ => .inl rfl⟩
  | getMany table keys => exact ⟨rfl, rfl, rfl, fun _ => .inr (.inl rfl)⟩
  | scan request => exact ⟨rfl, rfl, rfl, fun _ => .inr (.inr (.inl rfl))⟩
  | commit ops => exact ⟨rfl, rfl, rfl, fun _ => .inr (.inr (.inr (.inr rfl)))⟩
  | commitWith ops options => exact ⟨rfl, rfl, rfl, fun _ => .inr (.inr (.inr (.inr rfl)))⟩
  | usage =>
    refine ⟨rfl, rfl, ?_⟩
    simp [RedbBackend.step, Reply.Refused]
  | flush =>
    refine ⟨rfl, rfl, ?_⟩
    simp [MemoryBackend.step, MemoryBackend.flush, Reply.Refused]
  | close => exact ⟨rfl, rfl, rfl, fun h => absurd rfl h⟩

theorem interchangeable_cons {closed : Bool} :
    Interchangeable redb closed m r (call :: calls) ↔
      ((m.step call).1.Alike (r.step redb call).1 ∧
        (closed = true → call ≠ .close →
          (m.step call).1.Refused ∧ (r.step redb call).1.Refused)) ∧
      Interchangeable redb (closed || call = .close) (m.step call).2 (r.step redb call).2 calls := by
  simp only [Interchangeable, MemoryBackend.run, RedbBackend.run, List.forall₂_cons, Obeys]
  constructor
  · rintro ⟨⟨halike, hrest⟩, ⟨hm, hmrest⟩, hr, hrrest⟩
    exact ⟨⟨halike, fun hc hcall => ⟨hm hc hcall, hr hc hcall⟩⟩, hrest, hmrest, hrrest⟩
  · rintro ⟨⟨halike, hboth⟩, hrest, hmrest, hrrest⟩
    exact ⟨⟨halike, hrest⟩, ⟨fun hc hcall => (hboth hc hcall).1, hmrest⟩,
      fun hc hcall => (hboth hc hcall).2, hrrest⟩

/-- Closed backends go on alike exactly when nothing asks for a flush or for the usage. -/
theorem interchangeable_closed_iff (m_closed : m.closed = true) (r_closed : r.db = none) :
    Interchangeable redb true m r calls ↔ Quiet true calls := by
  induction calls with
  | nil => exact ⟨fun _ => trivial, fun _ => ⟨.nil, trivial, trivial⟩⟩
  | cons call calls ih =>
    obtain ⟨hm, hr, hreplies⟩ := step_closed m_closed r_closed
    rw [interchangeable_cons, hm, hr, Quiet, Bool.true_or, ih]
    refine and_congr_left fun _ => ?_
    split at hreplies
    · next hflush =>
      subst hflush
      constructor
      · rintro ⟨-, hboth⟩
        exact absurd (hboth rfl (by simp)).1 hreplies
      · rintro h
        exact absurd rfl (h rfl).1
    · next hflush =>
      split at hreplies
      · next husage =>
        subst husage
        constructor
        · rintro ⟨-, hboth⟩
          exact absurd (hboth rfl (by simp)).2 hreplies
        · rintro h
          exact absurd rfl (h rfl).2
      · next husage =>
        obtain ⟨heq, hrefused⟩ := hreplies
        rw [← heq]
        exact ⟨fun _ _ => ⟨hflush, husage⟩, fun _ =>
          ⟨Reply.alike_refl _, fun _ hcall => ⟨hrefused hcall, hrefused hcall⟩⟩⟩

/-- The two backends are interchangeable exactly while nothing asks a closed one for a flush or for
the usage: a flush succeeds on the closed backend in memory, and the usage of a closed database is
that of its file. -/
theorem interchangeable_iff (laws : redb.Lawful view pending) (same : SameContents view m r)
    (proper : ∀ call ∈ calls, call.Proper) :
    Interchangeable redb false m r calls ↔ Quiet false calls := by
  induction calls generalizing m r with
  | nil => exact ⟨fun _ => trivial, fun _ => ⟨.nil, trivial, trivial⟩⟩
  | cons call calls ih =>
    have hrest (c : BackendCall) (hc : c ∈ calls) : c.Proper := proper c (List.mem_cons_of_mem _ hc)
    rw [interchangeable_cons, Quiet, Bool.false_or]
    have hnever : (false = true → call ≠ .flush ∧ call ≠ .usage) := by simp
    by_cases hclose : call = .close
    · subst hclose
      obtain ⟨hopen, db, hdb, -⟩ := same
      have hm : (m.step .close).2.closed = true := by
        simp [MemoryBackend.step, MemoryBackend.close, hopen]
      have hr : (r.step redb .close).2.db = none := rfl
      rw [show decide (BackendCall.close = .close) = true from rfl, interchangeable_closed_iff hm hr]
      exact ⟨fun h => ⟨hnever, h.2⟩, fun h => ⟨⟨rfl, by simp⟩, h.2⟩⟩
    · obtain ⟨halike, hsame⟩ := step_same laws same (proper call List.mem_cons_self) hclose
      rw [show decide (call = .close) = false from decide_eq_false hclose, ih hsame hrest]
      exact ⟨fun h => ⟨hnever, h.2⟩, fun h => ⟨⟨halike, by simp⟩, h.2⟩⟩

/-- A new database is opened with its tables, and empty. -/
theorem sameContents_open (laws : redb.Lawful view pending) :
    ∃ r, RedbBackend.open redb = .ok r ∧ SameContents view .new r := by
  obtain ⟨db, hcreate, hnone⟩ := laws.create
  have hmissing : RedbBackend.anyTableMissing redb db = .ok true := by
    unfold RedbBackend.anyTableMissing
    rw [laws.beginRead]
    show RedbBackend.anyTableMissing.probe redb db Table.all = _
    rw [Table.all, RedbBackend.anyTableMissing.probe, laws.openTable, hnone]
    rfl
  obtain ⟨txn, hbegin, hview⟩ := laws.beginWrite db
  -- A table that is opened for writing is empty, and the others stay as they are.
  obtain ⟨txn₁, hmeta, h₁⟩ := laws.openWrite .meta txn
  obtain ⟨txn₂, hrecords, h₂⟩ := laws.openWrite .records txn₁
  obtain ⟨txn₃, hchunks, h₃⟩ := laws.openWrite .chunks txn₂
  obtain ⟨db', hcommit, hnew⟩ := laws.commit txn₃
  have hall : Table.all.foldlM
      (fun txn table => during "creating a table" (redb.openWrite table txn)) txn = .ok txn₃ := by
    simp [Table.all, hmeta, hrecords, hchunks, RedbBackend.during_ok, bind, Except.bind, pure,
      Except.pure]
  have htables : RedbBackend.createTables redb db = .ok db' := by
    unfold RedbBackend.createTables
    rw [hmissing]
    show (during _ (redb.beginWrite db) >>= _) = _
    rw [hbegin, RedbBackend.during_ok]
    show (Table.all.foldlM
      (fun txn table => during "creating a table" (redb.openWrite table txn)) txn >>= _) = _
    rw [hall]
    show during _ (redb.commit txn₃) = _
    rw [hcommit, RedbBackend.during_ok]
  refine ⟨⟨some db'⟩, ?_, rfl, db', rfl, fun table => ?_⟩
  · unfold RedbBackend.open
    rw [hcreate]
    show (RedbBackend.createTables redb db >>= _) = _
    rw [htables]
    rfl
  · rw [hnew, h₃, h₂, h₁, hview]
    cases table with
    | «meta» => simp [Function.update, hnone, MemoryBackend.new, Tables.get, Tables.empty]
    | records => simp [Function.update, hnone, MemoryBackend.new, Tables.get, Tables.empty]
    | chunks => simp [Function.update, hnone, MemoryBackend.new, Tables.get, Tables.empty]

end

/-! ## A database of maps -/

/-- A database whose states are the maps themselves. -/
def Redb.maps : Redb (Table → Option Tree) (Table → Option Tree) where
  create := .ok fun _ => none
  beginRead _ := .ok ()
  openTable db table := if (db table).isSome then .ok () else .error .tableDoesNotExist
  get db table key := .ok ((db table).getD ∅)[key]?
  range db table r := .ok ((Tree.inRange ((db table).getD ∅) r).map .ok)
  beginWrite db := .ok db
  setDurability _ txn := .ok txn
  openWrite table txn := .ok (Function.update txn table (some ((txn table).getD ∅)))
  insert table key value txn :=
    .ok (Function.update txn table (some (((txn table).getD ∅).insert key value)))
  remove table key txn := .ok (Function.update txn table (some (((txn table).getD ∅).erase key)))
  retainIn table r keep txn := .ok (Function.update txn table
    (some (((txn table).getD ∅).filter fun key value => !r.contains key || keep key value)))
  commit txn := .ok txn
  fileLen := 4096

theorem lawful_maps : Redb.maps.Lawful id id where
  create := ⟨_, rfl, fun _ => rfl⟩
  beginRead _ := rfl
  openTable _ _ := rfl
  get db table tree key h := by
    have h' : db table = some tree := h
    simp [Redb.maps, h']
  range db table tree r h _ := by
    have h' : db table = some tree := h
    simp [Redb.maps, h']
  beginWrite db := ⟨db, rfl, rfl⟩
  setDurability _ txn := ⟨txn, rfl, rfl⟩
  openWrite table txn := ⟨_, rfl, rfl⟩
  insert table key value txn tree h := by
    have h' : txn table = some tree := h
    exact ⟨_, rfl, by simp [h']⟩
  remove table key txn tree h := by
    have h' : txn table = some tree := h
    exact ⟨_, rfl, by simp [h']⟩
  retainIn table r keep txn tree h := by
    have h' : txn table = some tree := h
    exact ⟨_, rfl, by simp [h']⟩
  commit txn := ⟨txn, rfl, rfl⟩

/-- A put, a page of it and a close, twice. -/
theorem interchangeable_closed_twice : ∃ r, RedbBackend.open Redb.maps = .ok r ∧
    Interchangeable Redb.maps false .new r
      [.commit [.put .records [1] [2]], .scan ⟨.records, .all, true, 1, true⟩, .flush, .usage, .close,
        .get .records [1], .close] := by
  obtain ⟨r, hopen, same⟩ := sameContents_open lawful_maps
  refine ⟨r, hopen, (interchangeable_iff lawful_maps same fun call hcall => ?_).2 (by simp [Quiet])⟩
  simp only [List.mem_cons, List.not_mem_nil, or_false] at hcall
  rcases hcall with rfl | rfl | rfl | rfl | rfl | rfl | rfl <;> trivial

/-- A flush of the closed backend in memory succeeds. -/
theorem not_interchangeable_flush : Redb.maps.Lawful id id ∧
    ∃ r, RedbBackend.open Redb.maps = .ok r ∧
      ¬ Interchangeable Redb.maps false .new r [.close, .flush] := by
  obtain ⟨r, hopen, -⟩ := sameContents_open lawful_maps
  refine ⟨lawful_maps, r, hopen, ?_⟩
  rintro ⟨-, ⟨-, hflush, -⟩, -⟩
  have hrefused := hflush rfl (by simp)
  simp [MemoryBackend.step, MemoryBackend.close, MemoryBackend.flush, MemoryBackend.new,
    Reply.Refused] at hrefused

end Crossbank
