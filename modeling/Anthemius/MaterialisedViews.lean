import Anthemius.SpeculativeView

/-!
# The latest view over versions and over writes

The view of a transaction reads through to the versions of the block, or to a map of the
writes so far, and to the base view where they say nothing. Materialising the versions of a
key means to go through them in the order of the block and to turn every delta into a write
at once. A read of the versions goes the other way, from the latest version down, and merges
the deltas it meets before it has seen a value.
-/
namespace Anthemius
open LittleEndianBytes

/-- A delta as a write on top of what a view shows. -/
def DeltaOp.tryIntoWriteOp (d : DeltaOp) : StateValue → Option (Except ViewError WriteOp)
  | .error _ | .ok none => some (.error .storageError)
  | .ok (some bytes) => (deserialize bytes).map fun base =>
      match d.applyTo base with
      | .ok result => .ok (.modification (serialize result))
      | .error e => .error (.deltaError e)

/-- A materialised delta in terms of the value it was applied to. -/
def DeltaOp.Updates (d : DeltaOp) (value value' : Option Bytes) : Prop :=
  ∃ bytes b r, value = some bytes ∧ deserialize bytes = some b ∧ d.applyTo b = .ok r ∧
    value' = some (serialize r)

theorem DeltaOp.Updates.unique {d : DeltaOp} {value v v' : Option Bytes} (h : d.Updates value v)
    (h' : d.Updates value v') : v = v' := by
  obtain ⟨bytes, b, r, hv, hb, hr, rfl⟩ := h
  obtain ⟨bytes', b', r', hv', hb', hr', rfl⟩ := h'
  cases hv.symm.trans hv'
  cases hb.symm.trans hb'
  cases hr.symm.trans hr'
  rfl

theorem DeltaOp.tryIntoWriteOp_eq_ok {d : DeltaOp} {value : StateValue} {op : WriteOp} :
    d.tryIntoWriteOp value = some (.ok op) ↔ ∃ bytes, op = .modification bytes ∧
      ∃ old, value = .ok old ∧ d.Updates old (some bytes) := by
  constructor
  · intro h
    rcases value with e | (_ | bytes)
    · cases h
    · cases h
    · obtain ⟨b, hb, h⟩ := Option.map_eq_some_iff.mp h
      split at h
      · rename_i r hr
        cases h
        exact ⟨serialize r, rfl, some bytes, rfl, bytes, b, r, rfl, hb, hr, rfl⟩
      · cases h
  · rintro ⟨_, rfl, old, rfl, bytes, b, r, rfl, hb, hr, hs⟩
    cases hs
    simp [tryIntoWriteOp, hb, hr]

/-- A delta fails on a value where its application does. -/
theorem DeltaOp.tryIntoWriteOp_eq_error {d : DeltaOp} {bytes : Bytes} {e : ViewError}
    (h : d.tryIntoWriteOp (.ok (some bytes)) = some (.error e)) :
    ∃ b, deserialize bytes = some b ∧ ∀ r, d.applyTo b ≠ .ok r := by
  obtain ⟨b, hb, h⟩ := Option.map_eq_some_iff.mp h
  split at h
  · cases h
  · rename_i error he
    refine ⟨b, hb, fun r hr => ?_⟩
    rw [he] at hr
    cases hr

/-! ## The two kinds of views -/

namespace LatestView
variable {K : Type}

/-- `get_state_value` for what a read of the versions returned, over a base view that may
fail. -/
def resolve (stored : StateValue) : ReadResult → Option StateValue
  | .value data => some (.ok data.extractRawBytes)
  | .u128 value => some (.ok (some (serialize value)))
  | .unresolved delta =>
    match stored with
    | .error e => some (.error e)
    | .ok none => some (.error .storageError)
    | .ok (some bytes) => (deserialize bytes).map fun value =>
        match delta.applyTo value with
        | .ok result => .ok (some (serialize result))
        | .error e => .error (.deltaError e)
  | .none => some stored

theorem resolve_ok (stored : Option Bytes) (result : ReadResult) :
    resolve (.ok stored) result = latestValue stored result := by
  cases result with
  | unresolved delta => cases stored <;> rfl
  | _ => rfl

/-- The value that a read of the versions leads to, or the transaction to wait for. -/
def answer (stored : StateValue) (read : Option MVHashMapResult) :
    Option (Except TxnIndex StateValue) :=
  read.bind fun res =>
    match captureRead res with
    | .error dep => some (.error dep)
    | .ok (_, result) => (resolve stored result).map .ok

/-- `get_state_value` over a multi-version map. -/
def multiVersion (base : K → StateValue) (mv : MVHashMap K) (txn : TxnIndex) (key : K) :
    Option (Except TxnIndex StateValue) :=
  answer (base key) (mv.read key txn)

/-- `get_state_value` over a map of writes, at one key. -/
def written (stored : StateValue) : Option WriteOp → StateValue
  | some op => .ok op.extractRawBytes
  | none => stored

def btree (base : K → StateValue) (map : K → Option WriteOp) (key : K) : StateValue :=
  written (base key) (map key)

end LatestView

/-! ## Materialising the versions of a key -/

/-- One version on top of the write so far, if there is one. -/
def Entry.materialise (stored : StateValue) (op : Option WriteOp) :
    Option Entry → Option (Except ViewError (Option WriteOp))
  | none => some (.ok op)
  | some ⟨_, .write _ data⟩ => some (.ok (some data))
  | some ⟨_, .delta d⟩ =>
    (d.tryIntoWriteOp (LatestView.written stored op)).map (·.map some)

/-- The write at a key after the versions from one index on, in the order of the block;
the first delta that does not apply ends it. -/
def materialise (stored : StateValue) (entries : TxnIndex → Option Entry) (first : TxnIndex)
    (op : Option WriteOp) : ℕ → Option (Except ViewError (Option WriteOp))
  | 0 => some (.ok op)
  | count + 1 => (materialise stored entries first op count).bind fun
    | .error e => some (.error e)
    | .ok op' => Entry.materialise stored op' (entries (first + count))

section Materialise
variable {stored : StateValue} {entries : TxnIndex → Option Entry} {first : TxnIndex}
  {start op : Option WriteOp} {n : ℕ}

theorem materialise_succ_ok (h : materialise stored entries first start (n + 1) = some (.ok op)) :
    ∃ op', materialise stored entries first start n = some (.ok op') ∧
      Entry.materialise stored op' (entries (first + n)) = some (.ok op) := by
  obtain ⟨r, hr, h⟩ := Option.bind_eq_some_iff.mp h
  cases r with
  | error e => cases h
  | ok op' => exact ⟨op', hr, h⟩

theorem materialise_succ_error {e : ViewError}
    (h : materialise stored entries first start (n + 1) = some (.error e)) :
    materialise stored entries first start n = some (.error e) ∨
      ∃ op', materialise stored entries first start n = some (.ok op') ∧
        Entry.materialise stored op' (entries (first + n)) = some (.error e) := by
  obtain ⟨r, hr, h⟩ := Option.bind_eq_some_iff.mp h
  cases r with
  | error e' =>
    cases h
    exact .inl hr
  | ok op' => exact .inr ⟨op', hr, h⟩

theorem Entry.materialise_delta {flag : Flag} {d : DeltaOp} {op' : Option WriteOp}
    (h : Entry.materialise stored op' (some ⟨flag, .delta d⟩) = some (.ok op)) :
    ∃ bytes, op = some (.modification bytes) ∧
      ∃ old, LatestView.written stored op' = .ok old ∧ d.Updates old (some bytes) := by
  obtain ⟨r, hr, h⟩ := Option.map_eq_some_iff.mp h
  cases r with
  | error e => cases h
  | ok w =>
    cases h
    obtain ⟨bytes, rfl, old, hold, hup⟩ := DeltaOp.tryIntoWriteOp_eq_ok.mp hr
    exact ⟨bytes, rfl, old, hold, hup⟩

theorem Entry.materialise_delta_error {flag : Flag} {d : DeltaOp} {op' : Option WriteOp}
    {e : ViewError}
    (h : Entry.materialise stored op' (some ⟨flag, .delta d⟩) = some (.error e)) :
    d.tryIntoWriteOp (LatestView.written stored op') = some (.error e) := by
  obtain ⟨r, hr, h⟩ := Option.map_eq_some_iff.mp h
  cases r with
  | error e' =>
    cases h
    exact hr
  | ok w => cases h

theorem materialise_present {data : WriteOp} {bytes : Bytes}
    (hpresent : data.extractRawBytes = some bytes)
    (hdelta : ∀ i < n, ∀ flag inc data, entries (first + i) ≠ some ⟨flag, .write inc data⟩)
    (h : materialise stored entries first (some data) n = some (.ok op)) :
    ∃ w bytes', op = some w ∧ w.extractRawBytes = some bytes' := by
  induction n generalizing op with
  | zero =>
    cases h
    exact ⟨data, bytes, rfl, hpresent⟩
  | succ n ih =>
    obtain ⟨op', h', hstep⟩ := materialise_succ_ok h
    cases he : entries (first + n) with
    | none =>
      rw [he] at hstep
      cases hstep
      exact ih (fun i hi => hdelta i (by omega)) h'
    | some e =>
      obtain ⟨flag, cell⟩ := e
      cases cell with
      | write inc data' => exact absurd he (hdelta n (Nat.lt_succ_self n) _ _ _)
      | delta d =>
        rw [he] at hstep
        obtain ⟨bytes', rfl, -⟩ := Entry.materialise_delta hstep
        exact ⟨_, bytes', rfl, rfl⟩

end Materialise

/-! ## Reads of finished versions -/

section Reads
open MVHashMap
variable {stored : StateValue} {entries : TxnIndex → Option Entry} {op : Option WriteOp}
  {n limit : ℕ}

theorem answer_merged (hdone : ∀ i < n, ∀ e, entries i = some e → e.flag = .done)
    (hlimit : ∀ i < n, ∀ flag d, entries i = some ⟨flag, .delta d⟩ → d.limit = limit)
    (h : materialise stored entries 0 none n = some (.ok op)) {d : DeltaOp} {old : Option Bytes}
    {result : Option Bytes} (hd : d.limit = limit) (hold : LatestView.written stored op = .ok old)
    (hup : d.Updates old result) :
    LatestView.answer stored (readBelow entries n (some (.ok d))) = some (.ok (.ok result)) := by
  obtain ⟨bytes, b, r, rfl, hb, hr, rfl⟩ := hup
  induction n generalizing d bytes b r op with
  | zero =>
    cases h
    obtain rfl : stored = .ok (some bytes) := hold
    simp [LatestView.answer, readBelow, captureRead, LatestView.resolve, hb, hr]
  | succ n ih =>
    obtain ⟨op', h', hstep⟩ := materialise_succ_ok h
    rw [Nat.zero_add] at hstep
    have hdone' : ∀ i < n, ∀ e, entries i = some e → e.flag = .done :=
      fun i hi => hdone i (by omega)
    have hlimit' : ∀ i < n, ∀ flag d, entries i = some ⟨flag, .delta d⟩ → d.limit = limit :=
      fun i hi => hlimit i (by omega)
    cases he : entries n with
    | none =>
      rw [he] at hstep
      cases hstep
      simp only [readBelow, he]
      exact ih hdone' hlimit' h' hd bytes b r hold hb hr
    | some e =>
      obtain ⟨flag, cell⟩ := e
      obtain rfl : flag = .done := hdone n (Nat.lt_succ_self n) _ he
      cases cell with
      | write inc data =>
        rw [he] at hstep
        cases hstep
        have hdata : data.extractRawBytes = some bytes := Except.ok.inj hold
        simp [LatestView.answer, readBelow, he, hdata, hb, hr, captureRead, LatestView.resolve,
          Except.bind, Except.mapError]
      | delta d' =>
        rw [he] at hstep
        obtain ⟨bytes', rfl, old', hold', bytes'', b', r', rfl, hb', hr', hs⟩ :=
          Entry.materialise_delta hstep
        cases hs
        -- the delta at hand starts from what the version below it left
        cases hold
        rw [deserialize_serialize (DeltaOp.applyTo_lt hr')] at hb
        cases hb
        obtain ⟨merged, hm, hml, hma⟩ := DeltaOp.mergeOnto_applyTo
          (hd.trans (hlimit n (Nat.lt_succ_self n) _ _ he).symm) hr' hr
        have hacc : (Except.ok d : Except Unit DeltaOp).bind
            (fun d => (d.mergeOnto d').mapError fun _ => ()) = .ok merged := by
          simp [Except.bind, hm, Except.mapError]
        simp only [readBelow, he, hacc]
        exact ih hdone' hlimit' h' (hml.trans hd) bytes'' b' r hold' hb' hma

/-- A read of finished versions answers like the map of the materialised writes. -/
theorem answer_read (hdone : ∀ i < n, ∀ e, entries i = some e → e.flag = .done)
    (hlimit : ∀ i < n, ∀ flag d, entries i = some ⟨flag, .delta d⟩ → d.limit = limit)
    (h : materialise stored entries 0 none n = some (.ok op)) :
    LatestView.answer stored (readBelow entries n none) =
      some (.ok (LatestView.written stored op)) := by
  induction n generalizing op with
  | zero =>
    cases h
    rfl
  | succ n ih =>
    have hdone' : ∀ i < n, ∀ e, entries i = some e → e.flag = .done :=
      fun i hi => hdone i (by omega)
    have hlimit' : ∀ i < n, ∀ flag d, entries i = some ⟨flag, .delta d⟩ → d.limit = limit :=
      fun i hi => hlimit i (by omega)
    obtain ⟨op', h', hstep⟩ := materialise_succ_ok h
    rw [Nat.zero_add] at hstep
    cases he : entries n with
    | none =>
      rw [he] at hstep
      cases hstep
      simp only [readBelow, he]
      exact ih hdone' hlimit' h'
    | some e =>
      obtain ⟨flag, cell⟩ := e
      obtain rfl : flag = .done := hdone n (Nat.lt_succ_self n) _ he
      cases cell with
      | write inc data =>
        rw [he] at hstep
        cases hstep
        simp [LatestView.answer, readBelow, he, captureRead, LatestView.resolve, LatestView.written]
      | delta d =>
        rw [he] at hstep
        obtain ⟨bytes, rfl, old, hold, hup⟩ := Entry.materialise_delta hstep
        simp only [readBelow, he]
        exact answer_merged hdone' hlimit' h' (hlimit n (Nat.lt_succ_self n) _ _ he) hold hup

/-- The merged deltas above a version cannot be applied to the value that the versions up to
it leave, or these versions fail themselves. -/
def Rejected (a : Except Unit DeltaOp)
    (below : Option (Except ViewError (Option WriteOp))) : Prop :=
  (∃ e, below = some (.error e)) ∨ ∃ op bytes b, below = some (.ok (some op)) ∧
    op.extractRawBytes = some bytes ∧ deserialize bytes = some b ∧
    ∀ d r, a = .ok d → d.applyTo b ≠ .ok r

section Failure
variable {w : TxnIndex} {inc : Incarnation} {data : WriteOp} {bytes : Bytes} {count : ℕ}

/-- A delta at which the versions start to fail is rejected by the versions below it. -/
theorem rejected_of_error {d : DeltaOp} {flag : Flag} {e : ViewError}
    (hpresent : data.extractRawBytes = some bytes)
    (hdelta : ∀ i < count, ∀ flag inc data, entries (w + 1 + i) ≠ some ⟨flag, .write inc data⟩)
    (he : entries (w + 1 + count) = some ⟨flag, .delta d⟩)
    (h : materialise stored entries (w + 1) (some data) (count + 1) = some (.error e)) :
    Rejected (.ok d) (materialise stored entries (w + 1) (some data) count) := by
  rcases materialise_succ_error h with h | ⟨op, hbelow, hstep⟩
  · exact .inl ⟨e, h⟩
  · obtain ⟨op, bytes', rfl, hop⟩ := materialise_present hpresent hdelta hbelow
    rw [he] at hstep
    have hfail := Entry.materialise_delta_error hstep
    rw [LatestView.written, hop] at hfail
    obtain ⟨b, hb, hno⟩ := DeltaOp.tryIntoWriteOp_eq_error hfail
    refine .inr ⟨op, bytes', b, hbelow, hop, hb, fun d' r hd' => ?_⟩
    cases hd'
    exact hno r

theorem merge_ok {a : Except Unit DeltaOp} {d merged : DeltaOp}
    (h : (a.bind fun d' => (d'.mergeOnto d).mapError fun _ => ()) = .ok merged) :
    ∃ d', a = .ok d' ∧ d'.mergeOnto d = .ok merged := by
  cases a with
  | error u => cases h
  | ok d' =>
    cases hm : d'.mergeOnto d with
    | error e => simp [Except.bind, hm, Except.mapError] at h
    | ok m =>
      simp only [Except.bind, hm, Except.mapError, Except.ok.injEq] at h
      exact ⟨d', rfl, h ▸ hm⟩

/-- A failure of the next delta, or of the deltas merged above it, is one of the merge. -/
theorem Rejected.merge {a : Except Unit DeltaOp} {d : DeltaOp}
    (hpresent : data.extractRawBytes = some bytes)
    (hdelta : ∀ i < count, ∀ flag inc data, entries (w + 1 + i) ≠ some ⟨flag, .write inc data⟩)
    (he : entries (w + 1 + count) = some ⟨.done, .delta d⟩)
    (hlimit : ∀ d', a = .ok d' → d'.limit = d.limit)
    (h : Rejected a (materialise stored entries (w + 1) (some data) (count + 1))) :
    Rejected (a.bind fun d' => (d'.mergeOnto d).mapError fun _ => ())
      (materialise stored entries (w + 1) (some data) count) := by
  -- a merged delta that applies makes both deltas apply
  have hboth : ∀ m b r, (a.bind fun d' => (d'.mergeOnto d).mapError fun _ => ()) = .ok m →
      m.applyTo b = .ok r →
      ∃ d' mid, a = .ok d' ∧ d.applyTo b = .ok mid ∧ d'.applyTo mid = .ok r := by
    intro m b r hm hr
    obtain ⟨d', ha, hm⟩ := merge_ok hm
    obtain ⟨mid, hmid, hr⟩ := (DeltaOp.mergeOnto_applyTo_iff (hlimit d' ha) hm).mp hr
    exact ⟨d', mid, ha, hmid, hr⟩
  rcases h with ⟨e, h⟩ | ⟨op', bytes'', mid, h, hop', hmid, hrej⟩
  · rcases rejected_of_error hpresent hdelta he h with h | ⟨op, bytes', b, hbelow, hop, hb, hno⟩
    · exact .inl h
    · refine .inr ⟨op, bytes', b, hbelow, hop, hb, fun m r hm hr => ?_⟩
      obtain ⟨-, mid, -, hmid, -⟩ := hboth m b r hm hr
      exact hno d mid rfl hmid
  · obtain ⟨op₀, hbelow, hstep⟩ := materialise_succ_ok h
    obtain ⟨op, bytes', rfl, hop⟩ := materialise_present hpresent hdelta hbelow
    rw [he] at hstep
    obtain ⟨bytes₁, hw, old, hold, bytes₂, b, r', rfl, hb, hr', hs⟩ := Entry.materialise_delta hstep
    cases hs
    cases hw
    rw [LatestView.written, hop] at hold
    cases hold
    cases hop'
    rw [deserialize_serialize (DeltaOp.applyTo_lt hr')] at hmid
    cases hmid
    refine .inr ⟨op, bytes', b, hbelow, hop, hb, fun m r hm hr => ?_⟩
    obtain ⟨d', mid, ha, hmid, hr₂⟩ := hboth m b r hm hr
    cases hmid.symm.trans hr'
    exact hrej d' r ha hr₂

/-- Finished deltas with one limit. -/
def Deltas (entries : TxnIndex → Option Entry) (limit first count : ℕ) : Prop :=
  ∀ i < count, ∀ e, entries (first + i) = some e → ∃ d, e = ⟨.done, .delta d⟩ ∧ d.limit = limit

theorem Deltas.lower {first : ℕ} (h : Deltas entries limit first (count + 1)) :
    Deltas entries limit first count :=
  fun i hi => h i (by omega)

theorem Deltas.ne_write {first : ℕ} (h : Deltas entries limit first count) :
    ∀ i < count, ∀ flag inc data, entries (first + i) ≠ some ⟨flag, .write inc data⟩ := by
  intro i hi flag inc data he
  obtain ⟨d, hd, -⟩ := h i hi _ he
  cases hd

variable (hw : entries w = some ⟨.done, .write inc data⟩)
  (hpresent : data.extractRawBytes = some bytes)

include hw hpresent

/-- A read whose merged deltas are rejected fails at the write below them. -/
theorem read_rejected (hentries : Deltas entries limit (w + 1) count) {a : Except Unit DeltaOp}
    (hlimit : ∀ d, a = .ok d → d.limit = limit)
    (h : Rejected a (materialise stored entries (w + 1) (some data) count)) :
    readBelow entries (w + 1 + count) (some a) = some (.error .deltaApplicationFailure) := by
  induction count generalizing a with
  | zero =>
    rcases h with ⟨e, h⟩ | ⟨op, bytes', b, h, hop, hb, hrej⟩
    · cases h
    · cases h
      cases hop.symm.trans hpresent
      simp only [readBelow, hw, hpresent, hb, Option.map_some]
      split
      · rename_i r hr
        cases a with
        | error u => cases hr
        | ok d =>
          cases hd : d.applyTo b with
          | error e => simp [Except.bind, hd, Except.mapError] at hr
          | ok r' => exact absurd hd (hrej d r' rfl)
      · rfl
  | succ count ih =>
    rw [← Nat.add_assoc]
    cases he : entries (w + 1 + count) with
    | none =>
      have hsame : materialise stored entries (w + 1) (some data) (count + 1) =
          materialise stored entries (w + 1) (some data) count := by
        simp only [materialise, he, Entry.materialise]
        rcases materialise stored entries (w + 1) (some data) count with _ | _ | _ <;> rfl
      simp only [readBelow, he]
      exact ih hentries.lower hlimit (hsame ▸ h)
    | some e =>
      obtain ⟨d, rfl, hd⟩ := hentries count (Nat.lt_succ_self count) e he
      simp only [readBelow, he]
      refine ih hentries.lower (fun m hm => ?_) (h.merge hpresent hentries.lower.ne_write he
        fun d' hd' => (hlimit d' hd').trans hd.symm)
      obtain ⟨d', ha, hm⟩ := merge_ok hm
      obtain ⟨-, -, -, -, -, -, -, hl⟩ := DeltaOp.mergeOnto_eq_ok hm
      exact hl.trans (hlimit d' ha)

theorem read_failure (hentries : Deltas entries limit (w + 1) count) {e : ViewError}
    (h : materialise stored entries (w + 1) (some data) count = some (.error e)) :
    readBelow entries (w + 1 + count) none = some (.error .deltaApplicationFailure) := by
  induction count with
  | zero => cases h
  | succ count ih =>
    rw [← Nat.add_assoc]
    cases he : entries (w + 1 + count) with
    | none =>
      simp only [readBelow, he]
      rcases materialise_succ_error h with h | ⟨op, -, hstep⟩
      · exact ih hentries.lower h
      · rw [he] at hstep
        cases hstep
    | some entry =>
      obtain ⟨d, rfl, hd⟩ := hentries count (Nat.lt_succ_self count) entry he
      simp only [readBelow, he]
      refine read_rejected hw hpresent hentries.lower (fun d' hd' => ?_)
        (rejected_of_error hpresent hentries.lower.ne_write he h)
      cases hd'
      exact hd

end Failure
end Reads

/-- Over finished versions whose deltas of a key have one limit, the multi-version view shows
what the view over the materialised writes shows. Where the deltas above a present write fail
one by one, the read fails as a whole. -/
theorem LatestView.multiVersion_eq_btree {K : Type} (base : K → StateValue) (mv : MVHashMap K)
    (key : K) (txn : TxnIndex) (limit : ℕ)
    (hdone : ∀ i < txn, ∀ e, mv.entry key i = some e → e.flag = .done)
    (hlimit : ∀ i < txn, ∀ flag d, mv.entry key i = some ⟨flag, .delta d⟩ → d.limit = limit) :
    (∀ map : K → Option WriteOp,
      materialise (base key) (mv.entry key) 0 none txn = some (.ok (map key)) →
      multiVersion base mv txn key = some (.ok (btree base map key))) ∧
    (∀ w inc data bytes e, w < txn → mv.entry key w = some ⟨.done, .write inc data⟩ →
      data.extractRawBytes = some bytes →
      (∀ i, w < i → i < txn → ∀ flag inc data, mv.entry key i ≠ some ⟨flag, .write inc data⟩) →
      materialise (base key) (mv.entry key) (w + 1) (some data) (txn - (w + 1)) = some (.error e) →
      mv.read key txn = some (.error .deltaApplicationFailure)) := by
  refine ⟨fun map hmap => answer_read hdone hlimit hmap, ?_⟩
  intro w inc data bytes e hw hentry hpresent hno hfail
  obtain ⟨count, rfl⟩ : ∃ count : ℕ, txn = w + 1 + count := Nat.exists_eq_add_of_le hw
  rw [Nat.add_sub_cancel_left] at hfail
  suffices hdeltas : Deltas (mv.entry key) limit (w + 1) count from
    read_failure hentry hpresent hdeltas hfail
  intro i hi entry he
  have hlow : w < w + 1 + i := Nat.lt_of_lt_of_le (Nat.lt_succ_self w) (Nat.le_add_right _ i)
  have hhigh : w + 1 + i < w + 1 + count := Nat.add_lt_add_left hi (w + 1)
  obtain ⟨flag, cell⟩ := entry
  obtain rfl : flag = .done := hdone _ hhigh _ he
  cases cell with
  | write inc' data' => exact absurd he (hno _ hlow hhigh _ _ _)
  | delta d => exact ⟨d, rfl, hlimit _ hhigh _ _ he⟩

/-- A write of 10 and two deltas on top of it, of which the second takes too much. -/
def threeVersions : MVHashMap Unit :=
  ((MVHashMap.new.insertEntry () 0 ⟨.done, .write 0 (.creation (serialize 10))⟩).addDelta () 1
    (.deltaAdd 5 77 (by decide))).addDelta () 2 (.deltaSub 20 77 (by decide))

theorem multiVersion_eq_btree_threeVersions :
    LatestView.multiVersion (fun _ => .ok none) threeVersions 2 () =
      some (.ok (LatestView.btree (fun _ => .ok none)
        (fun _ => some (.modification (serialize 15))) ())) ∧
    threeVersions.read () 3 = some (.error .deltaApplicationFailure) := by
  have hentries : ∀ i : ℕ, i < 3 → ∀ e, threeVersions.entry () i = some e → e.flag = .done ∧
      ∀ d, e.cell = .delta d → d.limit = 77 := by
    intro i hi e he
    obtain rfl | rfl | rfl : i = 0 ∨ i = 1 ∨ i = 2 := by omega
    all_goals
      cases he
      refine ⟨rfl, fun d hd => ?_⟩
      cases hd
      try rfl
  have h := fun (n : ℕ) (hn : n ≤ 3) =>
    LatestView.multiVersion_eq_btree (fun _ => .ok none) threeVersions () n 77
      (fun i hi e he => (hentries i (Nat.lt_of_lt_of_le hi hn) e he).1)
      (fun i hi flag d he => (hentries i (Nat.lt_of_lt_of_le hi hn) _ he).2 d rfl)
  refine ⟨(h 2 (by decide)).1 _ rfl, (h 3 (by decide)).2 0 0 _ _ _ (by decide) rfl rfl ?_ rfl⟩
  intro (i : ℕ) (h0 : 0 < i) (h3 : i < 3) flag inc data he
  obtain rfl | rfl : i = 1 ∨ i = 2 := by omega
  all_goals cases he

end Anthemius
