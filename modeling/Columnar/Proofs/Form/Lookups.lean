import Columnar.Proofs.Form.Access

/-!
# Which buffers are looked up

Which buffers a reading needs comes out as it goes on: how much is read of a node depends on
the buffers above it, and an error ends the reading.  So a reading is taken apart into its
questions.  One that gives values has asked for the buffers of every node of the form, from
the outermost node on, and for nothing else; and wherever one of them is not there, reading
ends with the error that names it.

## Main definitions

* `Query` — a reading as questions for buffers, with the answer to each.
* `Form.queryColumn`, `Form.lookups` — reading a form, and the names that are looked up.
* `Form.bufferNames` — the names of the buffers of all nodes.
* `Buffers.without` — a table without the buffers of one name.

## Main results

* `Form.run_queryColumn` — reading is to ask, and to take what the table answers.
* `Form.lookups_eq` — **a reading that gives values has looked up every buffer of the form.**
* `Form.toValues_without` — **it gives none as soon as one of them is taken away.**
-/

namespace Columnar

/-- A reading that asks for one buffer after another. -/
inductive Query (α : Type)
  /-- The end of it. -/
  | done (result : Reading α)
  /-- Asks for the buffer of a name, for the node of a key. -/
  | ask (key name : String) (next : Buffer → Query α)

namespace Query

variable {α β : Type} {table : Buffers}

/-- What comes of a reading if a table answers.  A buffer that is not there ends it. -/
def run (table : Buffers) : Query α → Reading α
  | done result => result
  | ask key name next =>
    match lookup table name with
    | none => .error (.error ⟨some key, .missingBuffer name⟩)
    | some b => (next b).run table

/-- The names that are asked for, in order, if a table answers. -/
def asked (table : Buffers) : Query α → List String
  | done _ => []
  | ask _ name next =>
    name :: match lookup table name with
      | none => []
      | some b => (next b).asked table

/-- A reading and then another one, with the result of the first. -/
def bind (q : Query α) (next : α → Query β) : Query β :=
  match q with
  | done (.ok a) => next a
  | done (.error e) => done (.error e)
  | ask key name more => ask key name fun b => (more b).bind next

instance : Monad Query where
  pure a := done (.ok a)
  bind := bind

@[simp] theorem run_done (result : Reading α) : (done result).run table = result := rfl

@[simp] theorem run_pure (a : α) : (pure a : Query α).run table = .ok a := rfl

@[simp] theorem asked_done (result : Reading α) : (done result).asked table = [] := rfl

@[simp] theorem asked_pure (a : α) : (pure a : Query α).asked table = [] := rfl

@[simp] theorem run_bind (q : Query α) (next : α → Query β) :
    (q >>= next).run table = q.run table >>= fun a => (next a).run table := by
  change (q.bind next).run table = _
  induction q with
  | done result => cases result <;> rfl
  | ask key name more ih =>
    rw [bind, run, run]
    cases lookup table name with
    | none => rfl
    | some b => exact ih b

/-- A reading whose first part gives a result asks for what both of its parts ask for. -/
theorem asked_bind {q : Query α} {next : α → Query β} {a : α} (h : q.run table = .ok a) :
    (q >>= next).asked table = q.asked table ++ (next a).asked table := by
  change (q.bind next).asked table = _
  induction q with
  | done result =>
    cases h
    rfl
  | ask key name more ih =>
    rw [run] at h
    rw [bind, asked, asked]
    cases hb : lookup table name with
    | none =>
      rw [hb] at h
      cases h
    | some b =>
      rw [hb] at h
      exact congrArg (List.cons name) (ih b h)

end Query

/-- A table without the buffers of one name. -/
def Buffers.without (table : Buffers) (name : String) : Buffers :=
  table.filter fun e => e.1 != name

theorem Buffers.lookup_without (table : Buffers) (name other : String) :
    lookup (table.without name) other = if other = name then none else lookup table other := by
  induction table with
  | nil => simp [without]
  | cons e rest ih =>
    obtain ⟨key, b⟩ := e
    rw [without] at ih ⊢
    by_cases hkey : key = name
    · rw [List.filter_cons_of_neg (by simpa using hkey), ih]
      split
      · rfl
      · next hother => rw [lookup, if_neg fun h => hother (h.symm.trans hkey)]
    · rw [List.filter_cons_of_pos (by simpa using hkey), lookup, lookup, ih]
      by_cases hother : other = name
      · rw [if_pos hother, if_pos hother, if_neg fun h => hkey (h.trans hother)]
      · rw [if_neg hother, if_neg hother]

/-- A reading ends at the first of its questions for a buffer that has been taken away. -/
theorem Query.run_without {α : Type} {table : Buffers} {q : Query α} {name : String}
    (h : name ∈ q.asked table) :
    ∃ key, q.run (table.without name) = .error (.error ⟨some key, .missingBuffer name⟩) := by
  induction q with
  | done result => cases h
  | ask key other next ih =>
    rw [run, Buffers.lookup_without]
    by_cases hother : other = name
    · rw [if_pos hother, hother]
      exact ⟨key, rfl⟩
    · rw [if_neg hother]
      rw [asked] at h
      -- the question is another one, so it is answered as before
      rcases List.mem_cons.mp h with heq | h
      · exact absurd heq.symm hother
      · cases hb : lookup table other with
        | none =>
          rw [hb] at h
          cases h
        | some b =>
          rw [hb] at h
          exact ih b h

namespace Form

/-! ### Reading as questions -/

/-- The name of a buffer of a node. -/
def nameOf (partition : String) (f : Form) (role : String) : String :=
  bufferName partition (f.key?.getD "") role

/-- Asks for one buffer of a node, and reads the node with that buffer alone. -/
def askFor {α : Type} (partition : String) (f : Form) (role : String)
    (read : Buffers → Reading α) : Query α :=
  match f.key? with
  | none => .done (f.fail .missingFormKey)
  | some key =>
    let name := bufferName partition key role
    .ask key name fun b => .done (read [(name, b)])

mutual

/-- The first `length` elements of an array, by way of questions for buffers. -/
def queryColumn (partition : String) : Form → Nat → Query (Array Value)
  | .empty l, length =>
    .done (if length = 0 then .ok #[] else (Form.empty l).fail (.nonEmptyEmptyArray length))
  | .flat primitive l, length => do
    let f := Form.flat primitive l
    let items ← f.askFor partition "data" fun table =>
      readFlat table partition f primitive length
    Query.done (ensure (length ≤ maxValues))
    return items
  | .list width content l, length => do
    let f := Form.list width content l
    let offsets ← f.askFor partition "offsets" fun table => readOffsets table partition f length
    match offsets[length]? with
    | none => .done (.error .broken)
    | some total =>
      match f.stringKind? with
      | some encoding =>
        let bytes ← content.askFor partition "data" fun table =>
          content.buffer table partition "data" .uint8 total.toNat
        let items ← Query.done ((spans offsets.toList).mapM
          (readString partition content (encoding == .utf8) bytes))
        Query.done (ensure (length ≤ maxValues))
        return items.toArray
      | none =>
        let items ← queryColumn partition content total.toNat
        Query.done (ensure (length ≤ maxValues))
        return ((spans offsets.toList).map fun s => Value.list (slice items s)).toArray
  | .option width content l, length => do
    let f := Form.option width content l
    let index ← f.askFor partition "index" fun table =>
      f.buffer table partition "index" .int64 length
    let size ← Query.done (sizeOfPlaces partition f "index" 0 index.toList)
    let items ← queryColumn partition content size
    Query.done (ensure (length ≤ maxValues))
    return index.map (itemAt items)
  | .record contents keys l, length => do
    let columns ← querySized partition contents (List.replicate contents.length length)
    Query.done (ensure (length ≤ maxValues))
    let name := (lookup l.parameters recordParameter).bind Document.asString?
    return (Array.range length).map fun i => rowValue keys name (row columns i)
  | .union tagWidth width contents l, length => do
    let f := Form.union tagWidth width contents l
    let tags ← f.askFor partition "tags" fun table => f.buffer table partition "tags" .int8 length
    let index ← f.askFor partition "index" fun table =>
      f.buffer table partition "index" .int64 length
    let entries := tags.toList.zip index.toList
    let sizes ← Query.done (sizesOfTagged partition f (contents.map fun _ => 0) entries)
    let columns ← querySized partition contents sizes
    Query.done (ensure (length ≤ maxValues))
    return (entries.map (taggedItem columns)).toArray

/-- The first elements of each of several arrays, a number for each. -/
def querySized (partition : String) : List Form → List Nat → Query (List (Array Value))
  | f :: fs, n :: ns => do
    let head ← queryColumn partition f n
    return head :: (← querySized partition fs ns)
  | _, _ => .done (.ok [])

end

/-- The names that are looked up, in order, when the first `length` values are read. -/
def lookups (f : Form) (length : Nat) (table : Buffers) (partition : String) : List String :=
  (f.queryColumn partition length).asked table

mutual

/-- The names of the buffers of all nodes, each node before the nodes below it. -/
def bufferNames (partition : String) : Form → List String
  | .empty _ => []
  | .flat primitive l => [(Form.flat primitive l).nameOf partition "data"]
  | .list width content l =>
    let f := Form.list width content l
    f.nameOf partition "offsets" ::
      match f.stringKind? with
      | some _ => [content.nameOf partition "data"]
      | none => bufferNames partition content
  | .option width content l =>
    (Form.option width content l).nameOf partition "index" :: bufferNames partition content
  | .record contents _ _ => allBufferNames partition contents
  | .union tagWidth width contents l =>
    let f := Form.union tagWidth width contents l
    f.nameOf partition "tags" :: f.nameOf partition "index" :: allBufferNames partition contents

/-- The names of the buffers of several forms. -/
def allBufferNames (partition : String) : List Form → List String
  | [] => []
  | f :: fs => bufferNames partition f ++ allBufferNames partition fs

end

variable {table : Buffers} {partition : String} {f : Form} {n : Nat}

/-! ### Answers -/

/-- What is read of a node needs one buffer of it and nothing else. -/
def ReadsOne {α : Type} (partition : String) (f : Form) (role : String)
    (read : Buffers → Reading α) : Prop :=
  ∀ table, (f.askFor partition role read).run table = read table

theorem readsOne_buffer {α : Type} (role : String) (elements : Elements α) (n : Nat) :
    f.ReadsOne partition role fun table => f.buffer table partition role elements n := by
  intro table
  unfold askFor
  cases hkey : f.key? with
  | none =>
    unfold buffer
    rw [hkey]
    rfl
  | some key =>
    simp only [Query.run]
    unfold buffer
    simp only [hkey, lookup, if_true]
    cases hb : lookup table (bufferName partition key role) with
    | none => simp only [fail, hkey]
    | some b => rfl

theorem ReadsOne.bind {α β : Type} {role : String} {read : Buffers → Reading α}
    (h : f.ReadsOne partition role read)
    (next : α → Reading β) :
    f.ReadsOne partition role fun table => read table >>= next := by
  intro table
  have hread := h table
  unfold askFor at hread ⊢
  cases hkey : f.key? with
  | none =>
    simp only [hkey, Query.run_done] at hread ⊢
    rw [← hread]
    rfl
  | some key =>
    simp only [hkey, Query.run] at hread ⊢
    rw [← hread]
    cases lookup table (bufferName partition key role) with
    | none => rfl
    | some b => rfl

theorem readsOne_readFlat (primitive : Primitive) (n : Nat) :
    f.ReadsOne partition "data" fun table => readFlat table partition f primitive n := by
  cases primitive <;> exact (readsOne_buffer "data" _ n).bind _

theorem readsOne_readOffsets (n : Nat) :
    f.ReadsOne partition "offsets" fun table => readOffsets table partition f n :=
  (readsOne_buffer "offsets" .int64 _).bind _

/-- A buffer that has been read has been asked for. -/
theorem asked_askFor {α : Type} {role : String} {read : Buffers → Reading α} {a : α}
    (h : (f.askFor partition role read).run table = .ok a) :
    (f.askFor partition role read).asked table = [f.nameOf partition role] := by
  unfold askFor at h ⊢
  cases hkey : f.key? with
  | none =>
    rw [hkey] at h
    cases h
  | some key =>
    simp only [Query.asked, nameOf, hkey, Option.getD_some]
    cases lookup table (bufferName partition key role) <;> rfl

/-- To put together what has been read asks for nothing more. -/
theorem asked_ensure_bind {α : Type} {p : Prop} [Decidable p] (a : α) :
    (Query.done (ensure p) >>= fun _ => pure a).asked table = [] := by
  unfold ensure
  split <;> rfl

/-! ### Columns -/

theorem run_querySized {fs : List Form} {ns : List Nat}
    (h : ∀ f ∈ fs, ∀ n, (queryColumn partition f n).run table = readColumn table partition f n) :
    (querySized partition fs ns).run table = readSized table partition fs ns := by
  induction fs generalizing ns with
  | nil => rw [querySized, readSized] <;> simp
  | cons f fs ih =>
    cases ns with
    | nil => rw [querySized, readSized] <;> simp
    | cons n ns =>
      rw [querySized, readSized, Query.run_bind, h f List.mem_cons_self]
      simp only [Query.run_bind, Query.run_pure, ih fun g hg => h g (List.mem_cons_of_mem _ hg)]
      rfl

/-- **Reading is to ask for buffers and to take what the table answers.** -/
theorem run_queryColumn (f : Form) (n : Nat) :
    (queryColumn partition f n).run table = readColumn table partition f n := by
  induction f using induct generalizing n with
  | node f ih =>
    have hsized : ∀ fs, fs = f.contents → ∀ ns,
        (querySized partition fs ns).run table = readSized table partition fs ns := by
      rintro fs rfl ns
      exact run_querySized ih
    cases f with
    | empty l => rw [queryColumn, readColumn, Query.run_done]
    | flat primitive l =>
      rw [queryColumn, readColumn, Query.run_bind, readsOne_readFlat primitive n table]
      simp only [Query.run_bind, Query.run_done, Query.run_pure]
      rfl
    | list width content l =>
      rw [queryColumn, readColumn, Query.run_bind, readsOne_readOffsets n table]
      refine congrArg _ (funext fun offsets => ?_)
      cases offsets[n]? with
      | none => rfl
      | some total =>
        simp only
        cases (list width content l).stringKind? with
        | some encoding =>
          simp only [Query.run_bind, Query.run_done, Query.run_pure,
            readsOne_buffer (f := content) "data" .uint8 total.toNat table]
          rfl
        | none =>
          simp only [Query.run_bind, Query.run_pure, ih content (List.mem_singleton_self _)]
          rfl
    | option width content l =>
      rw [queryColumn, readColumn, Query.run_bind, readsOne_buffer "index" .int64 n table]
      simp only [Query.run_bind, Query.run_done, Query.run_pure,
        ih content (List.mem_singleton_self _)]
      rfl
    | record fs keys l =>
      rw [queryColumn, readColumn, readColumns_eq_readSized, Query.run_bind,
        hsized fs rfl]
      simp only [Query.run_bind, Query.run_done, Query.run_pure]
      rfl
    | union tagWidth width fs l =>
      rw [queryColumn, readColumn, Query.run_bind, readsOne_buffer "tags" .int8 n table]
      simp only [Query.run_bind, Query.run_done, Query.run_pure,
        readsOne_buffer "index" .int64 n table, hsized fs rfl]
      rfl

theorem asked_querySized {fs : List Form} {ns : List Nat} {columns : List (Array Value)}
    (hlen : fs.length = ns.length)
    (h : ∀ f ∈ fs, ∀ n out, (queryColumn partition f n).run table = .ok out →
      (queryColumn partition f n).asked table = f.bufferNames partition)
    (hrun : (querySized partition fs ns).run table = .ok columns) :
    (querySized partition fs ns).asked table = allBufferNames partition fs := by
  induction fs generalizing ns columns with
  | nil =>
    rw [querySized, allBufferNames, Query.asked_done]
    simp
  | cons f fs ih =>
    cases ns with
    | nil => cases hlen
    | cons n ns =>
      rw [querySized, Query.run_bind] at hrun
      obtain ⟨head, hhead, hrun⟩ := bind_eq_ok.mp hrun
      rw [Query.run_bind] at hrun
      obtain ⟨rest, hrest, -⟩ := bind_eq_ok.mp hrun
      have htail := ih (Nat.succ.inj hlen) (fun g hg => h g (List.mem_cons_of_mem _ hg)) hrest
      rw [querySized, Query.asked_bind hhead, Query.asked_bind hrest, Query.asked_pure,
        List.append_nil, h f List.mem_cons_self n head hhead, htail, allBufferNames]

/-- A column that is read has asked for the buffers of all its nodes. -/
theorem asked_queryColumn (f : Form) (n : Nat) (out : Array Value)
    (h : (queryColumn partition f n).run table = .ok out) :
    (queryColumn partition f n).asked table = f.bufferNames partition := by
  induction f using induct generalizing n out with
  | node f ih =>
    have hsized : ∀ fs, fs = f.contents → ∀ ns columns, fs.length = ns.length →
        (querySized partition fs ns).run table = .ok columns →
        (querySized partition fs ns).asked table = allBufferNames partition fs := by
      rintro fs rfl ns columns hlen hrun
      exact asked_querySized hlen ih hrun
    cases f with
    | empty l => rw [queryColumn, Query.asked_done, bufferNames]
    | flat primitive l =>
      rw [queryColumn, Query.run_bind] at h
      obtain ⟨items, hitems, -⟩ := bind_eq_ok.mp h
      rw [queryColumn, Query.asked_bind hitems, asked_askFor hitems, asked_ensure_bind,
        bufferNames, List.append_nil]
    | list width content l =>
      rw [queryColumn, Query.run_bind] at h
      obtain ⟨offsets, hoffsets, h⟩ := bind_eq_ok.mp h
      rw [queryColumn, Query.asked_bind hoffsets, asked_askFor hoffsets, bufferNames,
        List.singleton_append]
      refine congrArg (List.cons _) ?_
      cases htotal : offsets[n]? with
      | none =>
        rw [htotal] at h
        cases h
      | some total =>
        simp only [htotal] at h ⊢
        cases hkind : (list width content l).stringKind? with
        | some encoding =>
          simp only [hkind] at h ⊢
          rw [Query.run_bind] at h
          obtain ⟨bytes, hbytes, h⟩ := bind_eq_ok.mp h
          rw [Query.run_bind] at h
          obtain ⟨strings, hstrings, -⟩ := bind_eq_ok.mp h
          rw [Query.asked_bind hbytes, asked_askFor hbytes, Query.asked_bind hstrings,
            asked_ensure_bind]
          rfl
        | none =>
          simp only [hkind] at h ⊢
          rw [Query.run_bind] at h
          obtain ⟨items, hitems, -⟩ := bind_eq_ok.mp h
          rw [Query.asked_bind hitems, ih content (List.mem_singleton_self _) _ items hitems,
            asked_ensure_bind, List.append_nil]
    | option width content l =>
      rw [queryColumn, Query.run_bind] at h
      obtain ⟨index, hindex, h⟩ := bind_eq_ok.mp h
      rw [Query.run_bind] at h
      obtain ⟨size, hsize, h⟩ := bind_eq_ok.mp h
      rw [Query.run_bind] at h
      obtain ⟨items, hitems, -⟩ := bind_eq_ok.mp h
      rw [queryColumn, Query.asked_bind hindex, asked_askFor hindex, Query.asked_bind hsize,
        Query.asked_done, Query.asked_bind hitems,
        ih content (List.mem_singleton_self _) _ items hitems, asked_ensure_bind, bufferNames]
      simp
    | record fs keys l =>
      rw [queryColumn, Query.run_bind] at h
      obtain ⟨columns, hcolumns, -⟩ := bind_eq_ok.mp h
      rw [queryColumn, Query.asked_bind hcolumns,
        hsized fs rfl _ columns (by simp) hcolumns, asked_ensure_bind, bufferNames,
        List.append_nil]
    | union tagWidth width fs l =>
      rw [queryColumn, Query.run_bind] at h
      obtain ⟨tags, htags, h⟩ := bind_eq_ok.mp h
      rw [Query.run_bind] at h
      obtain ⟨index, hindex, h⟩ := bind_eq_ok.mp h
      rw [Query.run_bind] at h
      obtain ⟨sizes, hsizes, h⟩ := bind_eq_ok.mp h
      rw [Query.run_bind] at h
      obtain ⟨columns, hcolumns, -⟩ := bind_eq_ok.mp h
      have hlen : fs.length = sizes.length := by
        rw [(lt_sizesOfTagged hsizes).1, List.length_map]
      rw [queryColumn, Query.asked_bind htags, asked_askFor htags, Query.asked_bind hindex,
        asked_askFor hindex, Query.asked_bind hsizes, Query.asked_done,
        Query.asked_bind hcolumns, hsized fs rfl _ columns hlen hcolumns, asked_ensure_bind,
        bufferNames]
      simp

/-! ### Values -/

/-- **A reading that gives values has looked up every buffer of the form**, and nothing else. -/
theorem lookups_eq {vals : List Value} (h : f.toValues n table partition = .ok vals) :
    f.lookups n table partition = f.bufferNames partition := by
  cases hread : readColumn table partition f n with
  | error e =>
    rw [toValues, hread] at h
    cases h
  | ok out => exact asked_queryColumn f n out ((run_queryColumn f n).trans hread)

/-- **Without one of the buffers that are looked up, reading ends with the error that names
it.** -/
theorem toValues_without {name : String} (h : name ∈ f.lookups n table partition) :
    ∃ key, f.toValues n (table.without name) partition
      = .error (.error ⟨some key, .missingBuffer name⟩) := by
  obtain ⟨key, hkey⟩ := Query.run_without h
  rw [run_queryColumn] at hkey
  refine ⟨key, ?_⟩
  rw [toValues, hkey]
  rfl

end Form

end Columnar
