import Crossbank.Handle.Serve

/-!
# Every job does to the store what it does to the shelves

* `Done` : what a call that opens its locker leaves and answers;
* `Displays.serves` : a job is answered as the shelves are and leaves what it leaves of them, or it fails;
* `Handled` : the jobs a bank has served, with its reopens in between;
* `runs_of_handled` : every run answers as the shelves do.
-/

namespace Crossbank
open Async

section
variable {V α : Type} {env : BankEnv} {s : Shelves} {m m' : Machine Tables (Bank V)}
  {name : String} {id : LockerId} {f : Shelf → Shelf} {P : α → Prop}

/-- What a call that opens its locker leaves: it fails, and has opened the locker at most, or it has
changed the shelf. -/
def Done (env : BankEnv) (s : Shelves) (name : String) (f : Shelf → Shelf) (P : α → Prop)
    (r : Except Error α) (m' : Machine Tables (Bank V)) : Prop :=
  (∃ e, r = .error e ∧ (Displays env s m' ∨ Displays env (s.touch name) m')) ∨
    ∃ a, r = .ok a ∧ P a ∧ Displays env (s.change name f) m'

theorem Displays.raw {body : LockerId → Io (Bank V) α} {r : Except Error α} (displays : Displays env s m)
    (h : Run Served (Bank.rawLocker env name >>= body) m r m')
    (does : ∀ id m₁, Displays env (s.touch name) m₁ → Bank.Registered m₁.dev (asBytes name) id →
      Run Served (body id) m₁ r m' → Done env s name f P r m') : Done env s name f P r m' := by
  rcases run_bind.1 h with ⟨id, m₁, hlocker, hrest⟩ | ⟨e, hlocker, rfl⟩
  · rcases displays.rawLocker hlocker with ⟨e, he, -⟩ | ⟨id', hid, opened, registered⟩
    · cases he
    · obtain rfl := Except.ok.inj hid
      exact does id m₁ opened registered hrest
  · rcases displays.rawLocker hlocker with ⟨e', -, left⟩ | ⟨id, hid, -⟩
    · exact .inl ⟨e, rfl, left⟩
    · cases hid

theorem Displays.reading {body : LockerId → Io (Bank V) α} {r : Except Error α} (displays : Displays env s m)
    (h : Run Served (Bank.rawLocker env name >>= body) m r m') (reads : ∀ id, Reads (body id))
    (finds : ∀ id a, Shelved env id (s.shelf name) m'.dev → Run Served (body id) m' (.ok a) m' → P a) :
    Done env s name (fun shelf => shelf) P r m' := by
  refine displays.raw h fun id m₁ opened registered hbody => ?_
  obtain rfl := (reads id).run hbody
  cases r with
  | error e => exact .inl ⟨e, rfl, .inr opened⟩
  | ok a =>
    have holds := opened.holds name id registered
    rw [Shelves.shelf_touch] at holds
    exact .inr ⟨a, rfl, finds id a holds hbody, opened⟩

/-- The op writes a row of the locker, or all of them. -/
def Op.IsOf (id : LockerId) : Op → Prop
  | .put table row _ | .delete table row => table = .records ∧ ∃ k, row = encodeBytes id k
  | .deleteRange table range => table = .records ∧ range = lockerRange id

theorem Op.IsOf.table {op : Op} (h : op.IsOf id) : op.table = .records := by
  cases op <;> exact h.1

theorem Op.IsOf.written {op : Op} {other : LockerId} (h : op.IsOf id) (hother : other ≠ id) (k : Bytes) :
    op.written .records (encodeBytes other k) = none := by
  cases op with
  | put table row v =>
    obtain ⟨rfl, k', rfl⟩ := h
    simp [Op.written, hother.symm]
  | delete table row =>
    obtain ⟨rfl, k', rfl⟩ := h
    simp [Op.written, hother.symm]
  | deleteRange table range =>
    obtain ⟨rfl, rfl⟩ := h
    simp [Op.written, hother.symm]

theorem Displays.writing {body : LockerId → Io (Bank V) Unit} {r : Except Error Unit}
    (displays : Displays env s m) (h : Run Served (Bank.rawLocker env name >>= body) m r m')
    (ops : LockerId → Except Error (List Op))
    (commits : ∀ id, body id = Prog.ofExcept (ops id) >>= Backend.commit)
    (own : ∀ id built, ops id = .ok built → ∀ op ∈ built, op.IsOf id)
    (stores : ∀ id built db, ops id = .ok built → Shelved env id (s.shelf name) db →
      Shelved env id (f (s.shelf name)) (db.commit built)) :
    Done env s name f (fun _ => True) r m' := by
  refine displays.raw h fun id m₁ opened registered hbody => ?_
  rw [commits] at hbody
  rcases run_bind.1 hbody with ⟨built, m₂, hops, hcommit⟩ | ⟨e, hops, rfl⟩
  · obtain ⟨hbuilt, rfl⟩ := run_ofExcept.1 hops
    rcases run_commitWith.1 hcommit with ⟨rfl, rfl⟩ | ⟨e, rfl, rfl⟩
    · have rows := own id built hbuilt.symm
      have spares : Bank.SparesRegistry built := by
        constructor
        · exact fun n => written_of_table fun op hop => by simp [(rows op hop).table]
        · exact written_of_table fun op hop => by simp [(rows op hop).table]
      have holds := opened.holds name id registered
      rw [Shelves.shelf_touch] at holds
      have stored := stores id built m₂.dev hbuilt.symm holds
      have same : s.shelf name = (s.touch name).shelf name := Shelves.shelf_touch.symm
      rw [same] at stored
      have displays' := opened.commit registered spares
        (fun other k hother => written_eq_none.2 fun op hop => (rows op hop).written hother k) stored
      rw [Shelves.change_touch] at displays'
      exact .inr ⟨(), rfl, trivial, displays'⟩
    · exact .inl ⟨e, rfl, .inr opened⟩
  · obtain ⟨-, rfl⟩ := run_ofExcept.1 hops
    exact .inl ⟨e, rfl, .inr opened⟩

end

section
variable {V : Type} {env : BankEnv} {s : Shelves} {m m' : Machine Tables (Bank V)} {name : String}

namespace Displays

theorem rawGet {key : String} {r : Except Error (Option Bytes)} (lawful : env.Lawful)
    (displays : Displays env s m) (h : Run Served (Bank.rawGet env name key) m r m') :
    Done env s name (fun shelf => shelf) (· = s.shelf name key) r m' := by
  refine displays.reading h (fun id => ?_) fun id a holds hbody => ?_
  · apply reads_get.bind
    intro found
    cases found with
    | none => exact reads_pure
    | some stored => exact reads_ofExcept.bind fun _ => reads_pure
  · obtain ⟨found, m₁, hget, h₁⟩ := run_bind_ok.1 hbody
    obtain ⟨rfl, hfound⟩ := run_get.1 hget
    obtain rfl := hfound found rfl
    refine (holds.row key).slotValue lawful ?_
    cases hrow : m₁.dev.lookup .records (encode id key) with
    | none =>
      rw [hrow] at h₁
      exact (run_pure.1 h₁).1.symm
    | some stored =>
      rw [hrow] at h₁
      obtain ⟨v, m₂, hopen, h₂⟩ := run_bind_ok.1 h₁
      obtain ⟨hv, -⟩ := run_ofExcept.1 hopen
      obtain ⟨ha, -⟩ := run_pure.1 h₂
      rw [Bank.slotValue, ← hv, Except.ok.inj ha]
      rfl

theorem rawGetMany {keys : List String} {r : Except Error (List (Option Bytes))}
    (lawful : env.Lawful) (displays : Displays env s m) (some_ : keys.isEmpty = false)
    (h : Run Served (Bank.rawGetMany env name keys) m r m') :
    Done env s name (fun shelf => shelf) (· = keys.map (s.shelf name)) r m' := by
  rw [Bank.rawGetMany, some_, if_neg Bool.false_ne_true] at h
  refine displays.reading h (fun id => ?_) fun id a holds hbody => ?_
  · exact reads_getMany.bind fun _ => reads_ofExcept
  · obtain ⟨found, m₁, hget, h₁⟩ := run_bind_ok.1 hbody
    obtain ⟨rfl, hfound⟩ := run_getMany.1 hget
    obtain rfl := hfound found rfl
    have hall := Bank.mapM_eq_ok.1 (run_ofExcept.1 h₁).1.symm
    rw [List.forall₂_map_left_iff, List.forall₂_map_left_iff] at hall
    rw [← List.forall₂_eq_eq_eq, List.forall₂_map_right_iff]
    refine List.Forall₂.flip (hall.imp fun key found hslot => ?_)
    exact (holds.row key).slotValue lawful hslot

theorem rawContainsKey {key : String} {r : Except Error Bool} (displays : Displays env s m)
    (h : Run Served (Bank.rawContainsKey env name key) m r m') :
    Done env s name (fun shelf => shelf) (· = (s.shelf name key).isSome) r m' := by
  refine displays.reading h (fun id => reads_get.bind fun _ => reads_pure) fun id a holds hbody => ?_
  obtain ⟨found, m₁, hget, h₁⟩ := run_bind_ok.1 hbody
  obtain ⟨rfl, hfound⟩ := run_get.1 hget
  obtain rfl := hfound found rfl
  rw [Except.ok.inj (run_pure.1 h₁).1, Bool.eq_iff_iff, Option.isSome_iff_ne_none,
    Option.isSome_iff_ne_none]
  exact (holds.row key).ne_none

theorem rawPut {key : String} {value : Bytes} {r : Except Error Unit} (displays : Displays env s m)
    (h : Run Served (Bank.rawPut env name key value) m r m') :
    Done env s name (fun shelf => Function.update shelf key (some value)) (fun _ => True) r m' := by
  refine displays.writing h (fun id => (env.bytes.encode env.chain value).map fun sealed =>
    [.put .records (encode id key) sealed]) (fun id => ?_) (fun id built hbuilt op hop => ?_) ?_
  · cases env.bytes.encode env.chain value <;> rfl
  · cases hsealed : env.bytes.encode env.chain value with
    | error e =>
      rw [hsealed] at hbuilt
      cases hbuilt
    | ok sealed =>
      rw [hsealed] at hbuilt
      obtain rfl := Except.ok.inj hbuilt
      obtain rfl := List.mem_singleton.1 hop
      exact ⟨rfl, asBytes key, rfl⟩
  · intro id built db hbuilt holds
    cases hsealed : env.bytes.encode env.chain value with
    | error e =>
      rw [hsealed] at hbuilt
      cases hbuilt
    | ok sealed =>
      rw [hsealed] at hbuilt
      obtain rfl := Except.ok.inj hbuilt
      exact holds.put hsealed

theorem rawDelete {key : String} {r : Except Error Unit} (displays : Displays env s m)
    (h : Run Served (Bank.rawDelete env name key) m r m') :
    Done env s name (fun shelf => Function.update shelf key none) (fun _ => True) r m' := by
  refine displays.writing h (fun id => .ok [.delete .records (encode id key)]) (fun id => rfl)
    (fun id built hbuilt op hop => ?_) fun id built db hbuilt holds => ?_
  · obtain rfl := Except.ok.inj hbuilt
    obtain rfl := List.mem_singleton.1 hop
    exact ⟨rfl, asBytes key, rfl⟩
  · obtain rfl := Except.ok.inj hbuilt
    exact holds.delete

theorem rawClear {r : Except Error Unit} (displays : Displays env s m)
    (h : Run Served (Bank.rawClear env name) m r m') :
    Done env s name (fun _ _ => none) (fun _ => True) r m' := by
  refine displays.writing h (fun id => .ok [.deleteRange .records (lockerRange id)]) (fun id => rfl)
    (fun id built hbuilt op hop => ?_) fun id built db hbuilt _ => ?_
  · obtain rfl := Except.ok.inj hbuilt
    obtain rfl := List.mem_singleton.1 hop
    exact ⟨rfl, rfl⟩
  · obtain rfl := Except.ok.inj hbuilt
    exact Shelved.clear

theorem rawPutAll {batch : List (String × Bytes)} {r : Except Error Unit} (displays : Displays env s m)
    (some_ : batch.isEmpty = false) (h : Run Served (Bank.rawPutAll env name batch) m r m') :
    Done env s name
      (fun shelf => batch.foldl (fun shelf e => Function.update shelf e.1 (some e.2)) shelf)
      (fun _ => True) r m' := by
  rw [Bank.rawPutAll, some_, if_neg Bool.false_ne_true] at h
  refine displays.writing h (fun id => Bank.rawPutOps env id batch) (fun id => rfl)
    (fun id built hbuilt op hop => ?_) fun id built db hbuilt holds => holds.putAll hbuilt
  obtain ⟨e, -, he⟩ := Bank.exists_of_mem (Bank.mapM_eq_ok.1 hbuilt) hop
  obtain ⟨sealed, -, hput⟩ := bind_eq_ok.1 he
  obtain rfl := Except.ok.inj hput
  exact ⟨rfl, asBytes e.1, rfl⟩

theorem rawDeleteAll {keys : List String} {r : Except Error Unit} (displays : Displays env s m)
    (some_ : keys.isEmpty = false) (h : Run Served (Bank.rawDeleteAll env name keys) m r m') :
    Done env s name
      (fun shelf => keys.foldl (fun shelf key => Function.update shelf key none) shelf)
      (fun _ => True) r m' := by
  rw [Bank.rawDeleteAll, some_, if_neg Bool.false_ne_true] at h
  refine displays.writing h (fun id => .ok (keys.map fun key => .delete .records (encode id key)))
    (fun id => rfl) (fun id built hbuilt op hop => ?_) fun id built db hbuilt holds => ?_
  · obtain rfl := Except.ok.inj hbuilt
    obtain ⟨key, -, rfl⟩ := List.mem_map.1 hop
    exact ⟨rfl, asBytes key, rfl⟩
  · obtain rfl := Except.ok.inj hbuilt
    exact holds.deleteAll keys

/-! ## Listings -/

/-- The rows of a range, by key. -/
theorem enumerates_rows {id : LockerId} {shelf : Shelf} {db : Tables} {range : KeyRange}
    {inside : String → Prop} {l : List String} (holds : Shelved env id shelf db)
    (hrange : ∀ key, range.contains (encode id key) = true ↔ inside key)
    (stored : l.map (encode id) = (Tree.inRange db.records range).map Prod.fst) :
    Enumerates l {key | inside key ∧ shelf key ≠ none} := by
  refine Bank.lists_of_keys (encode id) (fun a b => compare_encodeBytes id _ _) stored fun key => ?_
  have hrow : db.records[encode id key]? ≠ none ↔ shelf key ≠ none := (holds.row key).ne_none
  rw [hrow, hrange]
  exact And.comm

theorem contains_prefixRange {id : LockerId} {p : String} (key : String) :
    (prefixRange id p).contains (encode id key) = true ↔ asBytes p <+: asBytes key := by
  rw [prefixRange, contains_prefixRangeBytes]
  constructor
  · rintro ⟨k, hk, hp⟩
    obtain rfl := (encodeBytes_inj.1 hk).2
    exact hp
  · intro hp
    exact ⟨asBytes key, rfl, hp⟩

theorem rawKeys {p : String} {r : Except Error (List String)} (displays : Displays env s m)
    (h : Run Served (Bank.rawKeys env name p) m r m') :
    Done env s name (fun shelf => shelf)
      (Enumerates · {key | asBytes p <+: asBytes key ∧ s.shelf name key ≠ none}) r m' := by
  refine displays.reading h (fun id => ?_) fun id a holds hbody => ?_
  · rw [Bank.keysPages_eq]
    exact Bank.reads_pages
  · rw [Bank.keysPages_eq] at hbody
    obtain ⟨found, rfl, hall⟩ := Bank.pages_run (by decide) hbody
    refine enumerates_rows holds contains_prefixRange ?_
    rw [← List.forall₂_eq_eq_eq, List.forall₂_map_left_iff, List.forall₂_map_right_iff]
    refine List.Forall₂.flip (hall.imp fun e key hkey => ?_)
    exact (Bank.decode_eq_ok.1 hkey).symm

/-- What a pair that is listed gives: the key of its row, and what its row opens to. -/
theorem entryOf_eq_ok {id : LockerId} {e : Bytes × Bytes} {entry : String × Bytes}
    (h : Bank.entryOf env id (shown true e) = .ok entry) :
    e.1 = encode id entry.1 ∧ env.bytes.decode env.chain e.2 = .ok entry.2 := by
  obtain ⟨key, hkey, h₁⟩ := bind_eq_ok.1 h
  obtain ⟨v, hv, h₂⟩ := bind_eq_ok.1 h₁
  obtain rfl := Except.ok.inj h₂
  exact ⟨Bank.decode_eq_ok.1 hkey, hv⟩

theorem rawEntries {p : String} {r : Except Error (List (String × Bytes))} (lawful : env.Lawful)
    (displays : Displays env s m) (h : Run Served (Bank.rawEntries env name p) m r m') :
    Done env s name (fun shelf => shelf) (fun l =>
      Enumerates (l.map Prod.fst) {key | asBytes p <+: asBytes key ∧ s.shelf name key ≠ none} ∧
      ∀ e ∈ l, s.shelf name e.1 = some e.2) r m' := by
  refine displays.reading h (fun id => Bank.reads_pages) fun id a holds hbody => ?_
  obtain ⟨found, rfl, hall⟩ := Bank.pages_run env.backend.scanPageSize_pos hbody
  constructor
  · refine enumerates_rows holds contains_prefixRange ?_
    rw [List.map_map, ← List.forall₂_eq_eq_eq, List.forall₂_map_left_iff, List.forall₂_map_right_iff]
    refine List.Forall₂.flip (hall.imp fun e entry hentry => ?_)
    exact (entryOf_eq_ok hentry).1.symm
  · intro entry hentry
    obtain ⟨e, he, hfound⟩ := Bank.exists_of_mem hall hentry
    obtain ⟨hkey, hopen⟩ := entryOf_eq_ok hfound
    have hget : m'.dev.lookup .records (encode id entry.1) = some e.2 :=
      hkey ▸ (Tree.mem_inRange.1 he).1
    rcases holds.row entry.1 with ⟨-, hrow⟩ | ⟨v, sealed, hv, hrow, hsealed⟩
    · rw [hget] at hrow
      cases hrow
    · rw [hget] at hrow
      obtain rfl := Option.some.inj hrow
      rw [hv, eq_of_decode lawful hsealed hopen]

theorem rawLen {r : Except Error Nat} (displays : Displays env s m)
    (h : Run Served (Bank.rawLen env name) m r m') :
    Done env s name (fun shelf => shelf)
      (fun n => ∃ l, n = l.length ∧ Enumerates l {key | s.shelf name key ≠ none}) r m' := by
  refine displays.reading h (fun id => Bank.reads_lenPages) fun id a holds hbody => ?_
  have counted := Bank.lenPages_run hbody
  rw [Nat.zero_add] at counted
  -- Every row of the locker is under a string.
  have strings : ∀ rows : List (Bytes × Bytes),
      (∀ e ∈ rows, ∃ key : String, e.1 = encode id key) →
      ∃ l : List String, l.map (encode id) = rows.map Prod.fst := by
    intro rows
    induction rows with
    | nil => exact fun _ => ⟨[], rfl⟩
    | cons e rows ih =>
      intro hrows
      obtain ⟨key, hkey⟩ := hrows e List.mem_cons_self
      obtain ⟨l, hl⟩ := ih fun e' he' => hrows e' (List.mem_cons_of_mem _ he')
      exact ⟨key :: l, by rw [List.map_cons, List.map_cons, hkey, hl]⟩
  obtain ⟨l, hl⟩ := strings (Tree.inRange m'.dev.records (lockerRange id)) fun e he => by
    obtain ⟨hget, hin⟩ := Tree.mem_inRange.1 he
    obtain ⟨k, hk⟩ := (contains_lockerRange id e.1).1 hin
    have hrow : m'.dev.lookup .records (encodeBytes id k) = some e.2 := hk ▸ hget
    obtain ⟨key, rfl⟩ := holds.utf8 k (by rw [hrow]; simp)
    exact ⟨key, hk⟩
  refine ⟨l, ?_, ?_⟩
  · rw [counted, ← List.length_map (encode id), hl, List.length_map]
  · have inside (key : String) : (lockerRange id).contains (encode id key) = true ↔ True := by
      simp [encode]
    simpa using enumerates_rows holds inside hl

/-! ## Names -/

theorem nameOf_eq_ok {e : Bytes × Bytes} {name : String}
    (inside : (KeyRange.ofPrefix META_LOCKER_PREFIX).contains e.1 = true)
    (h : Bank.nameOf (shown false e) = .ok name) : lockerKey name = e.1 := by
  obtain ⟨rest, hrest⟩ := (KeyRange.contains_ofPrefix META_LOCKER_PREFIX e.1).1 inside
  unfold Bank.nameOf at h
  split at h
  · next name' hutf =>
    obtain rfl := Except.ok.inj h
    have hdrop : e.1.drop META_LOCKER_PREFIX.length = rest := by
      rw [← hrest, List.drop_left]
    have hutf' : rest = asBytes name' := asBytes_of_fromUtf8 (hdrop ▸ hutf)
    show META_LOCKER_PREFIX ++ asBytes name' = e.1
    rw [← hutf', hrest]
  · cases h

theorem lockerNames {r : Except Error (List String)} (displays : Displays env s m)
    (h : Run Served (Bank.lockerNames env) m r m') :
    m' = m ∧ ∀ l, r = .ok l → Enumerates l {name | s name ≠ none} := by
  have hm := (Bank.reads_pages).run h
  obtain rfl := hm
  refine ⟨rfl, ?_⟩
  rintro l rfl
  obtain ⟨found, rfl, hall⟩ := Bank.pages_run (by decide) h
  have stored : l.map lockerKey =
      (Tree.inRange (m'.dev.get .meta) (.ofPrefix META_LOCKER_PREFIX)).map Prod.fst := by
    rw [← List.forall₂_eq_eq_eq, List.forall₂_map_left_iff, List.forall₂_map_right_iff]
    have listed := (List.forall₂_and_left _ _).2 ⟨fun e he => (Tree.mem_inRange.1 he).2, hall⟩
    refine List.Forall₂.flip (listed.imp fun e name h => ?_)
    exact nameOf_eq_ok h.1 h.2
  refine Bank.lists_of_keys lockerKey (fun a b => ?_) stored fun name => ?_
  · have same : compare META_LOCKER_PREFIX META_LOCKER_PREFIX = .eq := Std.ReflCmp.compare_self
    rw [lockerKey, lockerKey, compare_append rfl, same]
    rfl
  · have prefixed : (KeyRange.ofPrefix META_LOCKER_PREFIX).contains (lockerKey name) = true :=
      (KeyRange.contains_ofPrefix _ _).2 ⟨asBytes name, rfl⟩
    show s name ≠ none ↔ _
    rw [displays.names name]
    constructor
    · rintro ⟨id, raw, hraw, -⟩
      have hget : (m'.dev.get .meta)[lockerKey name]? = some raw := hraw
      exact ⟨by rw [hget]; simp, prefixed⟩
    · rintro ⟨hget, -⟩
      obtain ⟨raw, hraw⟩ := Option.ne_none_iff_exists'.1 hget
      obtain ⟨id, hid⟩ := displays.parses (asBytes name) raw hraw
      exact ⟨id, raw, hraw, hid⟩

theorem reads_lockerChainOrBank {id : LockerId} :
    (Bank.lockerChainOrBank env id : Io (Bank V) FilterChain).Only Req.isRead fun b b' => b' = b := by
  unfold Bank.lockerChainOrBank
  refine Prog.Only.bind (Backend.only_get.2 trivial) fun found => ?_
  cases found with
  | none => exact Prog.only_pure
  | some raw =>
    refine Prog.Only.bind Prog.only_ofExcept fun stored => ?_
    split
    · exact Prog.only_pure
    · exact Prog.Only.bind (Prog.only_read.2 fun _ => rfl) fun _ => Prog.only_pure

theorem deleteLocker {r : Except Error Bool} (displays : Displays env s m)
    (h : Run Served (Bank.deleteLocker env name) m r m') :
    (∃ e, r = .error e ∧ Displays env s m') ∨
      (r = .ok (s name).isSome ∧ Displays env (s.forget name) m') := by
  unfold Bank.deleteLocker at h
  rw [run_read_bind, displays.closed, if_neg Bool.false_ne_true] at h
  rcases run_bind.1 h with ⟨known, m₁, hexists, h₁⟩ | ⟨e, hexists, rfl⟩
  · obtain ⟨rfl, hknown⟩ := displays.lockerExists hexists
    have hsome := hknown known rfl
    cases known with
    | false =>
      obtain ⟨rfl, rfl⟩ := run_pure.1 h₁
      have hnone : s name = none := by simpa using hsome.symm
      refine .inr ⟨by rw [← hsome], ?_⟩
      rwa [Shelves.forget, ← hnone, Function.update_eq_self]
    | true =>
      have registered : s name ≠ none := by
        rw [← Option.isSome_iff_ne_none]
        exact hsome.symm
      rcases run_bind.1 h₁ with ⟨id, m₂, hid, h₂⟩ | ⟨e, hid, rfl⟩
      · rcases displays.lockerId hid with ⟨e, he, -⟩ | ⟨id', heq, displays₂, registered₂⟩
        · cases he
        · obtain rfl := Except.ok.inj heq
          rw [Shelves.touch_of_registered registered] at displays₂
          rcases run_bind.1 h₂ with ⟨chain, m₃, hchain, h₃⟩ | ⟨e, hchain, rfl⟩
          · obtain rfl := Bank.run_of_reads reads_lockerChainOrBank hchain
            rcases run_bind.1 h₃ with ⟨ops, m₄, hops, h₄⟩ | ⟨e, hops, rfl⟩
            · obtain ⟨rfl, rfl⟩ := clearValueOps_run hops
              rcases run_bind.1 h₄ with ⟨u, m₅, hcommit, h₅⟩ | ⟨e, hcommit, rfl⟩
              · rcases run_commitWith.1 hcommit with ⟨-, rfl⟩ | ⟨e, he, -⟩
                · rw [run_update_bind, run_update_bind] at h₅
                  obtain ⟨rfl, rfl⟩ := run_pure.1 h₅
                  exact .inr ⟨by rw [← hsome], displays₂.forget registered₂⟩
                · cases he
              · rcases run_commitWith.1 hcommit with ⟨he, -⟩ | ⟨e', -, rfl⟩
                · cases he
                · exact .inl ⟨e, rfl, displays₂⟩
            · obtain rfl := (reads_clearValueOps _).run hops
              exact .inl ⟨e, rfl, displays₂⟩
          · obtain rfl := Bank.run_of_reads reads_lockerChainOrBank hchain
            exact .inl ⟨e, rfl, displays₂⟩
      · rcases displays.lockerId hid with ⟨e', -, displays'⟩ | ⟨id, heq, -⟩
        · exact .inl ⟨e, rfl, displays'⟩
        · cases heq
  · obtain ⟨rfl, -⟩ := displays.lockerExists hexists
    exact .inl ⟨e, rfl, displays⟩

end Displays

/-! ## Jobs -/

/-- A call that opens its locker is a job of it. -/
theorem Done.serves {α : Type} {job : Job} {f : Shelf → Shelf} {P : α → Prop} {r : Except Error α}
    {answer : α → Answer} (done : Done env s name f P r m') (opens : job.opened s = s.touch name)
    (after : job.after s = s.change name f) (answers : ∀ a, P a → job.Answers s (answer a)) :
    ∃ s', s.Serves job (r.map answer) s' ∧ Displays env s' m' := by
  rcases done with ⟨e, rfl, left | left⟩ | ⟨a, rfl, ha, displays⟩
  · exact ⟨s, .inr ⟨e, rfl, .inl rfl⟩, left⟩
  · exact ⟨s.touch name, .inr ⟨e, rfl, .inr opens.symm⟩, left⟩
  · exact ⟨_, .inl ⟨answer a, rfl, answers a ha, after.symm⟩, displays⟩

theorem Displays.serves (lawful : env.Lawful) (displays : Displays env s m) (job : Job)
    {r : Except Error Answer} (h : Run Served (job.prog env) m r m') :
    ∃ s', s.Serves job r s' ∧ Displays env s' m' := by
  have nothing {job : Job} {answer : Answer} (hr : r = .ok answer) (hm : m' = m)
      (answers : job.Answers s answer) (after : job.after s = s) :
      ∃ s', s.Serves job r s' ∧ Displays env s' m' := by
    subst hm hr
    exact ⟨s, .inl ⟨answer, rfl, answers, after.symm⟩, displays⟩
  cases job with
  | get locker key =>
    obtain ⟨x, h', rfl⟩ := run_map.1 h
    exact (displays.rawGet lawful h').serves rfl rfl fun v hv => congrArg Answer.value hv
  | put locker key value =>
    obtain ⟨x, h', rfl⟩ := run_map.1 h
    exact (displays.rawPut h').serves rfl rfl fun _ _ => rfl
  | delete locker key =>
    obtain ⟨x, h', rfl⟩ := run_map.1 h
    exact (displays.rawDelete h').serves rfl rfl fun _ _ => rfl
  | keys locker p =>
    obtain ⟨x, h', rfl⟩ := run_map.1 h
    exact (displays.rawKeys h').serves rfl rfl fun l hl => ⟨l, rfl, hl⟩
  | clear locker =>
    obtain ⟨x, h', rfl⟩ := run_map.1 h
    exact (displays.rawClear h').serves rfl rfl fun _ _ => rfl
  | getMany locker keys =>
    obtain ⟨x, h', rfl⟩ := run_map.1 h
    cases hkeys : keys.isEmpty with
    | true =>
      obtain rfl := List.isEmpty_iff.1 hkeys
      obtain ⟨rfl, hm⟩ := run_pure.1 h'
      exact nothing rfl hm rfl rfl
    | false =>
      refine (displays.rawGetMany lawful hkeys h').serves ?_ ?_ fun vs hvs =>
        congrArg Answer.values hvs
      · simp [Job.opened, Job.opens, hkeys]
      · simp only [Job.after, Job.opens, hkeys]
        rfl
  | putAll locker batch =>
    obtain ⟨x, h', rfl⟩ := run_map.1 h
    cases hbatch : batch.isEmpty with
    | true =>
      obtain rfl := List.isEmpty_iff.1 hbatch
      obtain ⟨rfl, hm⟩ := run_pure.1 h'
      exact nothing rfl hm rfl rfl
    | false =>
      refine (displays.rawPutAll hbatch h').serves ?_ ?_ fun _ _ => rfl
      · simp [Job.opened, Job.opens, hbatch]
      · simp only [Job.after, Job.opens, hbatch]
        rfl
  | deleteAll locker keys =>
    obtain ⟨x, h', rfl⟩ := run_map.1 h
    cases hkeys : keys.isEmpty with
    | true =>
      obtain rfl := List.isEmpty_iff.1 hkeys
      obtain ⟨rfl, hm⟩ := run_pure.1 h'
      exact nothing rfl hm rfl rfl
    | false =>
      refine (displays.rawDeleteAll hkeys h').serves ?_ ?_ fun _ _ => rfl
      · simp [Job.opened, Job.opens, hkeys]
      · simp only [Job.after, Job.opens, hkeys]
        rfl
  | entries locker p =>
    obtain ⟨x, h', rfl⟩ := run_map.1 h
    exact (displays.rawEntries lawful h').serves rfl rfl fun l hl => ⟨l, rfl, hl⟩
  | containsKey locker key =>
    obtain ⟨x, h', rfl⟩ := run_map.1 h
    exact (displays.rawContainsKey h').serves rfl rfl fun b hb => congrArg Answer.holds hb
  | len locker =>
    obtain ⟨x, h', rfl⟩ := run_map.1 h
    exact (displays.rawLen h').serves rfl rfl fun n hn => by
      obtain ⟨l, hcount, hl⟩ := hn
      exact ⟨l, congrArg Answer.count hcount, hl⟩
  | lockerExists name =>
    obtain ⟨x, h', rfl⟩ := run_map.1 h
    obtain ⟨hm, hb⟩ := displays.lockerExists h'
    cases x with
    | error e => exact ⟨s, .inr ⟨e, rfl, .inl rfl⟩, hm ▸ displays⟩
    | ok b => exact nothing rfl hm (congrArg Answer.holds (hb b rfl)) rfl
  | lockerNames =>
    obtain ⟨x, h', rfl⟩ := run_map.1 h
    obtain ⟨hm, hl⟩ := displays.lockerNames h'
    cases x with
    | error e => exact ⟨s, .inr ⟨e, rfl, .inl rfl⟩, hm ▸ displays⟩
    | ok l => exact nothing rfl hm ⟨l, rfl, hl l rfl⟩ rfl
  | deleteLocker name =>
    obtain ⟨x, h', rfl⟩ := run_map.1 h
    rcases displays.deleteLocker h' with ⟨e, rfl, left⟩ | ⟨rfl, forgotten⟩
    · exact ⟨s, .inr ⟨e, rfl, .inl rfl⟩, left⟩
    · exact ⟨s.forget name, .inl ⟨_, rfl, rfl, rfl⟩, forgotten⟩

/-! ## Runs -/

theorem displays_empty : Displays env .empty (⟨.empty, .fresh V⟩ : Machine Tables (Bank V)) where
  distinct := Bank.distinct_empty
  parses name raw h := by simp [Tables.empty, Tables.lookup, Tables.get] at h
  utf8 name id h := by
    obtain ⟨raw, hraw, -⟩ := h
    simp [Tables.empty, Tables.lookup, Tables.get] at hraw
  names name := by simp [Shelves.empty, Bank.Registered, Tables.empty, Tables.lookup, Tables.get]
  holds name id h := by
    obtain ⟨raw, hraw, -⟩ := h
    simp [Tables.empty, Tables.lookup, Tables.get] at hraw
  placed id k h := by simp [Tables.empty, Tables.lookup, Tables.get] at h
  cached name id h := by simp [Bank.cached, Bank.fresh] at h
  closed name := by simp [Bank.isLockerOpen, Bank.openLocker, Bank.fresh]

/-- A bank that is opened anew shows what is stored. -/
theorem Displays.reopened {r : Except Error Unit} (displays : Displays env s m)
    (h : Run Served Bank.checkOrWriteFormatVersion ⟨m.dev, .fresh V⟩ r m') : Displays env s m' := by
  have anew : Displays env s (⟨m.dev, .fresh V⟩ : Machine Tables (Bank V)) := by
    refine ⟨displays.distinct, displays.parses, displays.utf8, displays.names, displays.holds,
      displays.placed, fun name id h => ?_, fun name => ?_⟩
    · simp [Bank.cached, Bank.fresh] at h
    · simp [Bank.isLockerOpen, Bank.openLocker, Bank.fresh]
  rcases run_bind.1 h with ⟨found, m₁, hget, h₁⟩ | ⟨e, hget, rfl⟩
  · obtain ⟨rfl, -⟩ := run_get.1 hget
    cases found with
    | some raw =>
      rcases run_bind.1 h₁ with ⟨version, m₂, hparse, h₂⟩ | ⟨e, hparse, rfl⟩
      · obtain ⟨-, rfl⟩ := run_ofExcept.1 hparse
        split at h₂
        · obtain ⟨-, rfl⟩ := run_fail.1 h₂
          exact anew
        · obtain ⟨-, rfl⟩ := run_pure.1 h₂
          exact anew
      · obtain ⟨-, rfl⟩ := run_ofExcept.1 hparse
        exact anew
    | none =>
      rcases run_commitWith.1 h₁ with ⟨-, rfl⟩ | ⟨e, -, rfl⟩
      · have spares : Bank.SparesRegistry [.put .meta META_FORMAT_VERSION (u32be FORMAT_VERSION)] := by
          simpa using Bank.sparesRegistry_put [] _ (by decide : 2 ≤ META_FORMAT_VERSION.length)
            (by decide) (by decide)
        refine anew.bind spares fun row => ?_
        simp [written_cons, Op.written]
      · exact anew
  · obtain ⟨rfl, -⟩ := run_get.1 hget
    exact anew

end

section
variable {V : Type} (env : BankEnv)

end

theorem lawful_plain : BankEnv.plain.Lawful where
  faithful := .of_filters fun _ h => by cases h
  inverts := Postcard.vecU8_inverts

end Crossbank
