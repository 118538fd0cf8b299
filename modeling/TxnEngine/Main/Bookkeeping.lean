import TxnEngine.Main.KeyValues
import TxnEngine.Main.Moves
import TxnEngine.Main.Story
import TxnEngine.Recovery.Reruns
import TxnEngine.Transaction.Lifecycle

/-!
# The engine keeps the ledger

What `main` prints is legal: each line is one that the ledger of the lines before it
allows (`output_legal`).  The ledger knows labels and keys, the engine ids, locks and
records, and `Agrees` says how the two correspond.  Every move of the engine keeps
them in agreement and prints a line that is allowed.

The ids of transactions and of resources are counters of 32 bits, so the runs are
those that begin and make fewer than `2 ^ 32 - 1` of them (`Few`).
-/

namespace TxnEngine

open Std Runs

namespace Main

variable {m m' : Main} {cmd : Command}

/-! ## The engine by itself -/

/-- Few transactions were begun and few resources were made. -/
def Few (m : Main) : Prop := m.tm.begun < 2 ^ 32 - 1 ∧ m.resourcesMade < 2 ^ 32 - 1

instance (m : Main) : Decidable (Few m) := inferInstanceAs (Decidable (_ ∧ _))

/-- The invariants of the engine that the comparison rests on. -/
structure Sane (m : Main) : Prop where
  ids : Ids m
  locking : Locking m
  filed : Filed m
  balanced : m.tm.Balanced

theorem sane_init (env : Environment) : Sane (init env) where
  ids := ids_init env
  locking := locking_init env
  filed := filed_init env
  balanced := TransactionManager.balanced_new

theorem resourcesMade_mono {events : List Event} (h : m'.trace = m.trace ++ events) :
    m.resourcesMade ≤ m'.resourcesMade := by
  rw [resourcesMade, resourcesMade, h, List.countP_append]
  exact Nat.le_add_right _ _

/-- A granted command leaves the transactions and the labels alone. -/
theorem perform_same (m : Main) (access : Access) (c : Issued) (txnId resourceId : Nat) :
    (m.perform access c txnId resourceId).tm = m.tm ∧
      (m.perform access c txnId resourceId).txnIds = m.txnIds := by
  cases access <;> exact ⟨rfl, rfl⟩

/-- What a move does to the transaction manager. -/
theorem Move.tm (h : Move cmd m m') : m'.tm = m.tm ∨ m'.tm = m.tm.beginTransaction.2 ∨
    (∃ txnId outcome, m'.tm = (m.tm.complete txnId outcome).2) ∨
      m'.tm = m.tm.abortAllTransactions := by
  have hsame := fun name => (m.ensureResource_same name).tm
  cases h with
  | start => exact .inr (.inl rfl)
  | @finish outcome txnId => exact .inr (.inr (.inl ⟨txnId, outcome, rfl⟩))
  | recover => exact .inr (.inr (.inr rfl))
  | lookup | refuse | shows => exact .inl (hsame _)
  | execute => exact .inl ((perform_same _ _ _ _ _).1.trans (hsame _))
  | reply | drop | issue | checkpoint => exact .inl rfl

theorem Move.begun (h : Move cmd m m') : m.tm.begun ≤ m'.tm.begun := by
  rcases h.tm with hsame | hbegin | ⟨txnId, outcome, hcomplete⟩ | habort
  · rw [hsame]
  · rw [hbegin]
    exact Nat.le_succ _
  · rw [hcomplete, (m.tm.complete_counters txnId outcome).2]
  · rw [habort, m.tm.counters_abortAll.2]

/-- A move of a run with few transactions and resources comes from one. -/
theorem Move.few (h : Move cmd m m') (few : Few m') : Few m := by
  obtain ⟨events, htrace⟩ := h.trace
  exact ⟨h.begun.trans_lt few.1, (resourcesMade_mono htrace).trans_lt few.2⟩

theorem Move.balanced (h : Move cmd m m') (few : Few m') (hbalanced : m.tm.Balanced) :
    m'.tm.Balanced := by
  have hbound := few.1
  rcases h.tm with hsame | hbegin | ⟨txnId, outcome, hcomplete⟩ | habort
  · rwa [hsame]
  · rw [hbegin] at hbound ⊢
    exact hbalanced.begin hbound
  · rw [hcomplete]
    exact hbalanced.complete txnId outcome
  · rw [habort]
    exact hbalanced.abortAll

/-- A lookup of a run with few resources. -/
theorem Filed.found (h : Filed m) (few : Few m') {name : Name}
    (hmade : m'.resourcesMade = (m.ensureResource name).2.resourcesMade) : Found m name := by
  refine h.lookup name ?_
  have hbound := few.2
  omega

theorem Move.filed (h : Move cmd m m') (few : Few m') (hfiled : Filed m) : Filed m' := by
  cases h with
  | reply | drop => exact hfiled.same rfl rfl
  | lookup name => exact (hfiled.found few rfl).filed
  | refuse =>
      have hfound := hfiled.found few rfl
      exact hfound.filed.requested hfound.names _ _
  | @execute c before later txnId access =>
      have hfound : Found m c.command.resourceName :=
        hfiled.found few (resourcesMade_perform _ access c txnId _)
      have hasked := hfound.filed.requested hfound.names txnId access.mode
      exact (hasked.perform hfound.names access txnId).same rfl rfl
  | start =>
      exact hfiled.same rfl (resourcesMade_append rfl (List.forall_mem_singleton.mpr rfl))
  | issue =>
      refine hfiled.same rfl (resourcesMade_append rfl ?_)
      cases m.ownerOf cmd.txnLabel with
      | none => exact List.forall_mem_nil _
      | some txn => exact List.forall_mem_singleton.mpr rfl
  | @finish outcome txnId =>
      exact hfiled.one (c := .complete txnId) trivial rfl rfl
        (resourcesMade_append rfl (List.forall_mem_singleton.mpr rfl))
  | shows => exact (hfiled.found few rfl).filed.same rfl rfl
  | checkpoint => exact hfiled.same rfl rfl
  | recover =>
      have hnone : ∀ c ∈ m.tm.getActiveTransactionIds.map Call.complete, c.creates = false := by
        intro c hc
        obtain ⟨txnId, -, rfl⟩ := List.mem_map.mp hc
        rfl
      have hcount : (m.tm.getActiveTransactionIds.map Call.complete).countP Call.creates = 0 :=
        List.countP_eq_zero.mpr fun c hc => by rw [hnone c hc]; exact Bool.false_ne_true
      have hnext := hfiled.next
      have hbound := few.2
      have hmade : m.recover.resourcesMade = m.resourcesMade := by
        refine resourcesMade_append rfl fun event hevent => ?_
        rcases mem_recoverEvents.mp hevent with rfl | ⟨c, -, rfl⟩ | ⟨id, -, rfl⟩
        all_goals rfl
      have hroom : m.directory.resources.nextResourceId +
          (m.tm.getActiveTransactionIds.map Call.complete).countP Call.creates < 2 ^ 32 := by
        show m.resources.nextResourceId + _ < 2 ^ 32
        omega
      refine hfiled.still ?_ hnone (completeAll_eq_run m.directory _).symm hmade
      exact lawful_completions m.directory _ hfiled.directory.sound
        (Directory.guarded_hasRoom hroom)

/-- There is an id left for a transaction that was begun. -/
theorem Few.room (few : Few m') (hbalanced : m.tm.Balanced) :
    m'.tm.begun = m.tm.begun + 1 → m.tm.nextTransactionId + 1 < 2 ^ 32 := by
  intro hbegun
  have hnext := hbalanced.next
  have hbound := few.1
  omega

theorem Move.sane (h : Move cmd m m') (few : Few m') (hsane : Sane m) : Sane m' := by
  have hroom := few.room hsane.balanced
  exact ⟨h.invariant Ids.step hroom hsane.ids,
    h.invariant (fun hs _ hI => hI.step hs) hroom hsane.locking, h.filed few hsane.filed,
    h.balanced few hsane.balanced⟩

/-! ## The correspondence -/

/-- The transaction of a label is active under an id. -/
def ActiveAs (m : Main) (label : Name) (txnId : Nat) : Prop :=
  m.txnIds[label]? = some txnId ∧ txnId ∈ m.tm.getActiveTransactionIds

/-- Labels have ids of their own. -/
structure Labels (m : Main) : Prop where
  injective : ∀ {label label' : Name} {txnId : Nat}, m.txnIds[label]? = some txnId →
    m.txnIds[label']? = some txnId → label = label'
  known : ∀ {label : Name} {txnId : Nat}, m.txnIds[label]? = some txnId →
    txnId < m.tm.nextTransactionId

/-- An access is on record: the transaction has executed it on the resource of the key. -/
def Executed (m : Main) (report : Report) : Prop :=
  ∃ op ∈ operations m.trace, m.txnIds[report.label]? = some op.transactionId ∧
    m.idOf report.key = some op.resourceId ∧ op.access = report.access

/-- The ledger and the engine say the same. -/
structure Agrees (m : Main) (ledger : Ledger) : Prop where
  active : ∀ label, label ∈ ledger.active ↔ ∃ txnId, m.ActiveAs label txnId
  ended : ∀ label, label ∈ ledger.ended ↔
    ∃ txnId, m.txnIds[label]? = some txnId ∧ txnId ∉ m.tm.getActiveTransactionIds
  count : ledger.active.length = m.tm.activeTransactions.size
  committed : ledger.committed = m.tm.committedCount
  aborted : ledger.aborted = m.tm.abortedCount
  value : ledger.value = m.keyValue
  reports : ∀ report ∈ ledger.reports, report.key ≠ [] → m.Executed report

theorem Executed.mono {report : Report} (h : m.Executed report) (hids : m'.txnIds = m.txnIds)
    (hkeys : ∀ (key : List Name) (id : Nat), m.idOf key = some id → m'.idOf key = some id)
    (hops : operations m.trace <+: operations m'.trace) : m'.Executed report := by
  obtain ⟨op, hop, hlabel, hkey, haccess⟩ := h
  exact ⟨op, hops.subset hop, hids ▸ hlabel, hkeys _ _ hkey, haccess⟩

/-- The correspondence depends on the transactions, the labels, the keys and the
operations. -/
theorem Agrees.congr {ledger : Ledger} (h : Agrees m ledger) (htm : m'.tm = m.tm)
    (hids : m'.txnIds = m.txnIds)
    (hvalue : m'.keyValue = m.keyValue)
    (hkeys : ∀ (key : List Name) (id : Nat), m.idOf key = some id → m'.idOf key = some id)
    (hops : operations m.trace <+: operations m'.trace) : Agrees m' ledger where
  active := by
    simp only [ActiveAs, htm, hids]
    exact h.active
  ended := by
    simp only [htm, hids]
    exact h.ended
  count := by rw [htm, h.count]
  committed := by rw [htm, h.committed]
  aborted := by rw [htm, h.aborted]
  value := by rw [hvalue, h.value]
  reports := fun report hmem hne => (h.reports report hmem hne).mono hids hkeys hops

/-- A step that only moves locks, pending commands, lines or the clock. -/
theorem Agrees.still {ledger : Ledger} (h : Agrees m ledger) (htm : m'.tm = m.tm)
    (hids : m'.txnIds = m.txnIds)
    (hresources : m'.resources = m.resources)
    (hops : operations m'.trace = operations m.trace) : Agrees m' ledger := by
  have hkeys : m'.idOf = m.idOf := by
    funext key
    show (if _ then m'.resources.resourceIds[_]? else none) = _
    rw [hresources]
    rfl
  refine h.congr htm hids ?_ (fun key id hid => ?_) (hops ▸ List.prefix_rfl)
  · funext key
    have hkey : m'.directory.tree.idOf key = m.directory.tree.idOf key := congrFun hkeys key
    exact Directory.keyValue_congr hkey (congrArg Resources.dataStore hresources)
  · rw [hkeys]
    exact hid

theorem operations_ensureResource (m : Main) (name : Name) :
    operations (m.ensureResource name).2.trace = operations m.trace := by
  refine (m.ensureResource_spec (P := fun _ a => a = .create) (fun _ => rfl) name).1.invariant
    (I := fun m' => operations m'.trace = operations m.trace) ?_ rfl
  rintro m₁ m₂ a hs rfl hI
  exact (hs.operations fun c hc => by cases hc).trans hI

theorem Agrees.lookup {ledger : Ledger} (h : Agrees m ledger) {name : Name}
    (hfound : Found m name) : Agrees (m.ensureResource name).2 ledger := by
  have hsame := m.ensureResource_same name
  have hops := m.operations_ensureResource name
  exact h.congr hsame.tm hsame.txnIds hfound.values
    hfound.ids (hops ▸ List.prefix_rfl)

/-! ## Granted commands -/

/-- A granted command is on record. -/
theorem executed_perform {access : Access} {c : Issued} {txnId id : Nat} {key : List Name}
    (hlabel : m.txnIds[c.command.txnLabel]? = some txnId) (hid : m.idOf key = some id) :
    (m.perform access c txnId id).Executed ⟨c.command.txnLabel, key, access⟩ := by
  refine ⟨m.operationOf access c txnId id, ?_, ?_, ?_, rfl⟩
  · rw [operations_perform]
    exact List.mem_append_right _ List.mem_cons_self
  · rw [(m.perform_same access c txnId id).2]
    exact hlabel
  · cases access <;> exact hid

theorem Agrees.read {ledger : Ledger} (h : Agrees m ledger) {c : Issued} {txnId id : Nat}
    (hlabel : m.txnIds[c.command.txnLabel]? = some txnId)
    (hid : segments c.command.resourceName ≠ [] →
      m.idOf (segments c.command.resourceName) = some id) :
    Agrees (m.perform .read c txnId id)
      (ledger.next (.reads c.command.txnLabel c.command.resourceName (m.valueOf id))) := by
  have hops : operations m.trace <+: operations (m.perform .read c txnId id).trace := by
    rw [operations_perform]
    exact List.prefix_append _ _
  have hsame : Agrees (m.perform .read c txnId id) ledger :=
    h.congr rfl rfl rfl (fun _ _ hkey => hkey) hops
  refine { hsame with reports := ?_ }
  intro report hmem hne
  rcases List.mem_append.mp hmem with hmem | hmem
  · exact hsame.reports report hmem hne
  · rw [List.mem_singleton.mp hmem] at hne ⊢
    exact executed_perform hlabel (hid hne)

theorem Agrees.write {ledger : Ledger} (h : Agrees m ledger) (hsound : m.directory.Sound)
    {c : Issued} {txnId id : Nat} (hlabel : m.txnIds[c.command.txnLabel]? = some txnId)
    (hid : segments c.command.resourceName ≠ [] →
      m.idOf (segments c.command.resourceName) = some id)
    (hname : segments c.command.resourceName = [] → ∀ key, m.idOf key ≠ some id) :
    Agrees (m.perform .write c txnId id)
      (ledger.next (.writes c.command.txnLabel c.command.resourceName c.command.value)) := by
  have hops : operations m.trace <+: operations (m.perform .write c txnId id).trace := by
    rw [operations_perform]
    exact List.prefix_append _ _
  constructor
  case active => exact h.active
  case ended => exact h.ended
  case count => exact h.count
  case committed => exact h.committed
  case aborted => exact h.aborted
  case value =>
    funext key
    have hupdate := keyValue_update hsound c.command.value hid hname key
    refine Eq.trans ?_ hupdate.symm
    show (if _ then _ else ledger.value key) = _
    rw [h.value]
    rfl
  case reports =>
    intro report hmem hne
    rcases List.mem_append.mp hmem with hmem | hmem
    · exact (h.reports report hmem hne).mono rfl (fun _ _ hkey => hkey) hops
    · rw [List.mem_singleton.mp hmem] at hne ⊢
      exact executed_perform hlabel (hid hne)

/-! ## Transactions that begin and end -/

theorem Labels.start (h : Labels m) {label : Name} (hnext : (m.start label).tm.nextTransactionId =
    m.tm.nextTransactionId + 1) : Labels (m.start label) where
  injective := by
    intro l l' txnId hl hl'
    rw [txnIds_start] at hl hl'
    split at hl
    · next heq =>
        split at hl'
        · next heq' => exact heq.symm.trans heq'
        · cases hl
          exact absurd (h.known hl') (Nat.lt_irrefl _)
    · split at hl'
      · cases hl'
        exact absurd (h.known hl) (Nat.lt_irrefl _)
      · exact h.injective hl hl'
  known := by
    intro l txnId hl
    rw [txnIds_start] at hl
    rw [hnext]
    split at hl
    · cases hl
      exact Nat.lt_succ_self _
    · exact (h.known hl).trans (Nat.lt_succ_self _)

/-- The active transactions after BEGIN. -/
theorem activeAs_start (hlabels : Labels m) {label : Name} (fresh : label ∉ m.txnIds)
    (label' : Name) (txnId : Nat) :
    (m.start label).ActiveAs label' txnId ↔
      m.ActiveAs label' txnId ∨ label' = label ∧ txnId = m.tm.nextTransactionId := by
  have hmem : txnId ∈ (m.start label).tm.getActiveTransactionIds ↔
      txnId = m.tm.nextTransactionId ∨ txnId ∈ m.tm.getActiveTransactionIds :=
    m.tm.mem_activeIds_begin
  have hnone : m.txnIds[label]? = none := by
    rw [← Option.not_isSome_iff_eq_none, ExtTreeMap.isSome_getElem?_iff_mem]
    exact fresh
  rw [ActiveAs, ActiveAs, txnIds_start, hmem]
  by_cases heq : label = label'
  · subst heq
    rw [if_pos rfl, hnone]
    constructor
    · rintro ⟨hid, _⟩
      exact .inr ⟨rfl, (Option.some.inj hid).symm⟩
    · rintro (⟨hid, _⟩ | ⟨_, rfl⟩)
      · cases hid
      · exact ⟨rfl, .inl rfl⟩
  · rw [if_neg heq]
    constructor
    · rintro ⟨hid, rfl | hold⟩
      · exact absurd (hlabels.known hid) (Nat.lt_irrefl _)
      · exact .inl ⟨hid, hold⟩
    · rintro (⟨hid, hold⟩ | ⟨rfl, _⟩)
      · exact ⟨hid, .inr hold⟩
      · exact absurd rfl heq

theorem Agrees.start {ledger : Ledger} (h : Agrees m ledger) (hsane : Sane m) (hlabels : Labels m)
    {label : Name} (fresh : label ∉ m.txnIds) :
    Agrees (m.start label) (ledger.next (.started label)) := by
  have hnew : m.tm.nextTransactionId ∉ m.tm.getActiveTransactionIds := fun hmem =>
    Nat.lt_irrefl _ (hsane.ids.known _ (.inl hmem))
  have hnone : m.txnIds[label]? = none := by
    rw [← Option.not_isSome_iff_eq_none, ExtTreeMap.isSome_getElem?_iff_mem]
    exact fresh
  have hactive := activeAs_start hlabels fresh
  constructor
  case active =>
    intro label'
    simp only [hactive, exists_or]
    show label' ∈ ledger.active ++ [label] ↔ _
    rw [List.mem_append, List.mem_singleton, h.active]
    exact or_congr_right ⟨fun heq => ⟨_, heq, rfl⟩, fun ⟨_, heq, _⟩ => heq⟩
  case ended =>
    intro label'
    show label' ∈ ledger.ended ↔ _
    rw [h.ended]
    refine exists_congr fun txnId => ?_
    have hmem : txnId ∈ (m.start label).tm.getActiveTransactionIds ↔
        txnId = m.tm.nextTransactionId ∨ txnId ∈ m.tm.getActiveTransactionIds :=
      m.tm.mem_activeIds_begin
    rw [txnIds_start, hmem]
    by_cases heq : label = label'
    · subst heq
      rw [if_pos rfl, hnone]
      constructor
      · rintro ⟨hid, _⟩
        cases hid
      · rintro ⟨hid, hnot⟩
        exact absurd (.inl (Option.some.inj hid).symm) hnot
    · rw [if_neg heq]
      refine and_congr_right fun hid => not_congr ?_
      have hne : txnId ≠ m.tm.nextTransactionId := Nat.ne_of_lt (hlabels.known hid)
      exact (or_iff_right hne).symm
  case count =>
    have hcontains : ¬ m.tm.activeTransactions.contains m.tm.nextTransactionId = true := by
      rw [ExtTreeMap.contains_iff_mem, ← ExtTreeMap.isSome_getElem?_iff_mem,
        Option.isSome_iff_exists]
      exact fun hfound => hnew (m.tm.mem_getActiveTransactionIds.mpr hfound)
    show (ledger.active ++ [label]).length =
      (m.tm.activeTransactions.insert m.tm.nextTransactionId _).size
    rw [ExtTreeMap.size_insert, if_neg hcontains, List.length_append, h.count]
    rfl
  case committed => exact h.committed
  case aborted => exact h.aborted
  case value => exact h.value
  case reports =>
    intro report hmem hne
    obtain ⟨op, hop, hlabel, hkey, haccess⟩ := h.reports report hmem hne
    refine ⟨op, ?_, ?_, hkey, haccess⟩
    · show op ∈ operations (m.trace ++ [_])
      rw [operations_append]
      exact List.mem_append_left _ hop
    rw [txnIds_start, if_neg, hlabel]
    rintro rfl
    rw [hnone] at hlabel
    cases hlabel

/-- The transactions that are active after one of them ended. -/
theorem activeAs_finish (hlabels : Labels m) {label : Name} {txnId : Nat}
    (hlabel : m.txnIds[label]? = some txnId) (outcome : Outcome) (label' : Name) (txnId' : Nat) :
    (m.finish txnId outcome).ActiveAs label' txnId' ↔
      m.ActiveAs label' txnId' ∧ label' ≠ label := by
  have hmem : txnId' ∈ (m.finish txnId outcome).tm.getActiveTransactionIds ↔
      txnId' ≠ txnId ∧ txnId' ∈ m.tm.getActiveTransactionIds := m.tm.mem_activeIds_complete
  have hids : (m.finish txnId outcome).txnIds = m.txnIds := rfl
  rw [ActiveAs, ActiveAs, hids, hmem]
  constructor
  · rintro ⟨hid, hne, hold⟩
    refine ⟨⟨hid, hold⟩, ?_⟩
    rintro rfl
    exact hne (Option.some.inj (hid.symm.trans hlabel))
  · rintro ⟨⟨hid, hold⟩, hne⟩
    refine ⟨hid, ?_, hold⟩
    rintro rfl
    exact hne (hlabels.injective hid hlabel)

theorem Agrees.finish {ledger : Ledger} (h : Agrees m ledger) (hsane : Sane m)
    (hlabels : Labels m) (htidy : ledger.Tidy) {label : Name} {txnId : Nat} {txn : Transaction}
    (hlabel : m.txnIds[label]? = some txnId) (outcome : Outcome)
    (hfound : m.tm.activeTransactions[txnId]? = some txn) :
    Agrees (m.finish txnId outcome) (ledger.next (.completed label outcome)) := by
  have hmem : txnId ∈ m.tm.getActiveTransactionIds :=
    m.tm.mem_getActiveTransactionIds.mpr ⟨txn, hfound⟩
  have hin : label ∈ ledger.active := (h.active label).mpr ⟨txnId, hlabel, hmem⟩
  have hactive := activeAs_finish hlabels hlabel outcome
  obtain ⟨hcommitted, haborted⟩ := TransactionManager.counts_complete outcome hfound
  have hbalance := hsane.balanced.balance
  have hfew := hsane.balanced.few
  constructor
  case active =>
    intro label'
    simp only [hactive, exists_and_right]
    show label' ∈ ledger.active.erase label ↔ _
    rw [htidy.once.mem_erase_iff, h.active, and_comm]
  case ended =>
    intro label'
    show label' ∈ ledger.ended ++ [label] ↔ ∃ txnId', m.txnIds[label']? = some txnId' ∧
      txnId' ∉ (m.tm.complete txnId outcome).2.getActiveTransactionIds
    simp only [TransactionManager.mem_activeIds_complete, not_and_or, not_not]
    rw [List.mem_append, List.mem_singleton, h.ended]
    constructor
    · rintro (⟨txnId', hid, hnot⟩ | rfl)
      · exact ⟨txnId', hid, .inr hnot⟩
      · exact ⟨txnId, hlabel, .inl rfl⟩
    · rintro ⟨txnId', hid, rfl | hnot⟩
      · exact .inr (hlabels.injective hid hlabel)
      · exact .inl ⟨txnId', hid, hnot⟩
  case count =>
    have hsize := TransactionManager.size_erase_active hfound
    have hlength := List.length_erase_of_mem hin
    have hcount := h.count
    show (ledger.active.erase label).length =
      (m.tm.complete txnId outcome).2.activeTransactions.size
    rw [(m.tm.complete_active outcome hfound).2.1]
    omega
  case committed =>
    show ledger.committed + (if outcome = .commit then 1 else 0) =
      (m.tm.complete txnId outcome).2.committedCount
    rw [hcommitted, h.committed]
    cases outcome with
    | commit => exact (succ32_of_lt (by omega)).symm
    | abort => rfl
  case aborted =>
    show ledger.aborted + (if outcome = .abort then 1 else 0) =
      (m.tm.complete txnId outcome).2.abortedCount
    rw [haborted, h.aborted]
    cases outcome with
    | commit => rfl
    | abort => exact (succ32_of_lt (by omega)).symm
  case value => exact h.value
  case reports =>
    intro report hmem' hne
    have hold := h.reports report (List.mem_filter.mp hmem').1 hne
    refine hold.mono rfl (fun _ _ hkey => hkey) ?_
    show operations m.trace <+: operations (m.trace ++ [_])
    rw [operations_append]
    exact List.prefix_append _ _

/-- RECOVER ends every active transaction. -/
theorem Agrees.recover {ledger : Ledger} (h : Agrees m ledger) (hsane : Sane m) (line : Output)
    {redo undo : Nat} (hline : line = .recovered redo undo) :
    Agrees m.recover (ledger.next line) := by
  subst hline
  have hnone : ∀ txnId, txnId ∉ m.recover.tm.getActiveTransactionIds := fun txnId =>
    m.tm.activeIds_abortAll
  have hafter : m.recover.tm.Balanced := hsane.balanced.abortAll
  have hbalance := hsane.balanced.balance
  have hbalance' := hafter.balance
  have hbegun : m.recover.tm.begun = m.tm.begun := m.tm.counters_abortAll.2
  have hsize : m.recover.tm.activeTransactions.size = 0 := m.tm.size_abortAll
  have hcommitted : m.recover.tm.committedCount = m.tm.committedCount :=
    m.tm.committedCount_abortAll
  constructor
  case active =>
    intro label
    refine ⟨fun hmem => absurd hmem List.not_mem_nil, ?_⟩
    rintro ⟨txnId, _, hactive⟩
    exact absurd hactive (hnone txnId)
  case ended =>
    intro label
    show label ∈ ledger.ended ++ ledger.active ↔ _
    rw [List.mem_append, h.ended, h.active]
    constructor
    · rintro (⟨txnId, hid, _⟩ | ⟨txnId, hid, _⟩)
      all_goals exact ⟨txnId, hid, hnone txnId⟩
    · rintro ⟨txnId, hid, _⟩
      by_cases hactive : txnId ∈ m.tm.getActiveTransactionIds
      · exact .inr ⟨txnId, hid, hactive⟩
      · exact .inl ⟨txnId, hid, hactive⟩
  case count => exact hsize.symm
  case committed => exact h.committed.trans hcommitted.symm
  case aborted =>
    show ledger.aborted + ledger.active.length = _
    rw [h.aborted, h.count]
    omega
  case value => exact h.value
  case reports => exact fun report hmem => absurd hmem List.not_mem_nil

/-! ## Every line is allowed -/

/-- The engine keeps the ledger of its lines, and they are legal. -/
structure Books (m : Main) : Prop where
  sane : Sane m
  labels : Labels m
  agrees : Agrees m (.of m.output)
  legal : Ledger.Legal m.output

theorem books_init (env : Environment) : Books (init env) where
  sane := sane_init env
  labels := by
    constructor
    · intro label label' txnId hlabel
      simp [init] at hlabel
    · intro label txnId hlabel
      simp [init] at hlabel
  agrees := by
    constructor
    case active => simp [Ledger.of, Ledger.next, Ledger.empty, init, ActiveAs]
    case ended => simp [Ledger.of, Ledger.next, Ledger.empty, init]
    case count => rfl
    case committed => rfl
    case aborted => rfl
    case value =>
      funext key
      have hnone : (init env).directory.tree.idOf key = none := by
        show (if _ then (∅ : ExtTreeMap Name Nat)[joined key]? else none) = none
        rw [ExtTreeMap.getElem?_empty, ite_self]
      show initialValue key = Directory.keyValue _ key
      rw [Directory.keyValue, hnone]
    case reports => exact fun report hmem => absurd hmem List.not_mem_nil
  legal := by
    have hnil : Ledger.Legal [] := Arrivals.each_nil
    have hhelp : Ledger.Legal ([] ++ [.help]) := Ledger.legal_concat.mpr ⟨hnil, trivial⟩
    exact hhelp

theorem Labels.congr (h : Labels m) (hids : m'.txnIds = m.txnIds)
    (hnext : m'.tm.nextTransactionId = m.tm.nextTransactionId) : Labels m' where
  injective := by
    rw [hids]
    exact h.injective
  known := by
    rw [hids, hnext]
    exact h.known

theorem Move.labels (h : Move cmd m m') (hsane : Sane m) (hsane' : Sane m') (hlabels : Labels m) :
    Labels m' := by
  have hsame := m.ensureResource_same
  have hnext : ∀ name, (m.ensureResource name).2.tm.nextTransactionId = m.tm.nextTransactionId :=
    fun name => congrArg TransactionManager.nextTransactionId (hsame name).tm
  cases h with
  | start =>
      have hcounter : (m.start cmd.txnLabel).tm.nextTransactionId = m.tm.nextTransactionId + 1 := by
        have hbefore := hsane.balanced.next
        have hafter : (m.start cmd.txnLabel).tm.nextTransactionId = m.tm.begun + 1 + 1 :=
          hsane'.balanced.next
        omega
      exact (hlabels.start hcounter).congr rfl rfl
  | lookup | refuse | shows => exact hlabels.congr (hsame _).txnIds (hnext _)
  | @execute c before later txnId access =>
      have hperform := perform_same ((m.ensureResource c.command.resourceName).2.requested txnId
        (m.ensureResource c.command.resourceName).1 access.mode) access c txnId
          (m.ensureResource c.command.resourceName).1
      refine hlabels.congr (hperform.2.trans (hsame _).txnIds) ?_
      exact (congrArg TransactionManager.nextTransactionId hperform.1).trans (hnext _)
  | @finish outcome txnId => exact hlabels.congr rfl (m.tm.complete_counters txnId outcome).1
  | recover => exact hlabels.congr rfl m.tm.counters_abortAll.1
  | reply | drop | issue | checkpoint => exact hlabels.congr rfl rfl

variable {ledger : Ledger}

/-- A label that is known is active or has ended. -/
theorem Agrees.known (h : Agrees m ledger) {label : Name} (known : label ∈ m.txnIds) :
    label ∈ ledger.active ∨ label ∈ ledger.ended := by
  obtain ⟨txnId, hid⟩ := Option.isSome_iff_exists.mp (ExtTreeMap.isSome_getElem?_iff_mem.mpr known)
  by_cases hactive : txnId ∈ m.tm.getActiveTransactionIds
  · exact .inl ((h.active label).mpr ⟨txnId, hid, hactive⟩)
  · exact .inr ((h.ended label).mpr ⟨txnId, hid, hactive⟩)

theorem Agrees.unknown (h : Agrees m ledger) {label : Name} (unknown : label ∉ m.txnIds) :
    label ∉ ledger.active ∧ label ∉ ledger.ended := by
  have hnone : ∀ txnId, m.txnIds[label]? ≠ some txnId := fun txnId hid =>
    unknown (ExtTreeMap.isSome_getElem?_iff_mem.mp (by rw [hid]; rfl))
  constructor
  · rw [h.active]
    rintro ⟨txnId, hid, _⟩
    exact hnone txnId hid
  · rw [h.ended]
    rintro ⟨txnId, hid, _⟩
    exact hnone txnId hid

theorem Agrees.mem_active (h : Agrees m ledger) {label : Name}
    (active : m.labelActive label = true) : label ∈ ledger.active := by
  obtain ⟨txnId, hid, hactive⟩ := labelActive_iff.mp active
  rw [m.tm.isTransactionActive_iff, ← m.tm.mem_getActiveTransactionIds] at hactive
  exact (h.active label).mpr ⟨txnId, hid, hactive⟩

/-- A line that reports and changes nothing is allowed. -/
theorem Reply.allows {line : Output} (hreply : Reply m cmd line) (h : Agrees m ledger) :
    ledger.Allows line ∧ ledger.next line = ledger := by
  cases hreply with
  | help | unknown | invalid => exact ⟨trivial, rfl⟩
  | alreadyExists full known => exact ⟨h.known known, rfl⟩
  | notFound unknown => exact ⟨h.unknown unknown, rfl⟩
  | notActive known ended =>
      refine ⟨?_, rfl⟩
      rcases h.known known with hactive | hended
      · obtain ⟨txnId, hid, hmem⟩ := (h.active _).mp hactive
        have htrue := m.tm.isTransactionActive_iff.mpr (m.tm.mem_getActiveTransactionIds.mp hmem)
        rw [labelActive_of_label hid, htrue] at ended
        cases ended
      · exact hended
  | status => exact ⟨⟨h.count.symm, h.committed.symm, h.aborted.symm⟩, rfl⟩
  | waiting waits active => exact ⟨h.mem_active active, rfl⟩
  | resumes waits active => exact ⟨h.mem_active active, rfl⟩

theorem Books.quiet (h : Books m) (hsane : Sane m') (hlabels : Labels m')
    (houtput : m'.output = m.output) (hagrees : Agrees m' (.of m.output)) : Books m' :=
  ⟨hsane, hlabels, houtput ▸ hagrees, houtput ▸ h.legal⟩

theorem Books.prints (h : Books m) (hsane : Sane m') (hlabels : Labels m') {line : Output}
    (houtput : m'.output = m.output ++ [line]) (hallows : (Ledger.of m.output).Allows line)
    (hagrees : Agrees m' ((Ledger.of m.output).next line)) : Books m' := by
  refine ⟨hsane, hlabels, ?_, ?_⟩
  · rw [houtput, Ledger.of_concat]
    exact hagrees
  · rw [houtput]
    exact Ledger.legal_concat.mpr ⟨h.legal, hallows⟩

/-- What a granted command prints is allowed: other transactions whose accesses
conflict would still have their locks. -/
theorem Agrees.grants (h : Agrees m ledger) (hlabels : Labels m) (htidy : ledger.Tidy)
    (hsane : Sane m') {report : Report} (hreport : m'.Executed report)
    (hactive : report.label ∈ ledger.active)
    (hids : m'.txnIds = m.txnIds) (htm : m'.tm = m.tm)
    (hkeys : ∀ (key : List Name) (id : Nat), m.idOf key = some id → m'.idOf key = some id)
    (hops : operations m.trace <+: operations m'.trace) : ledger.Grants report := by
  intro earlier hmem hconflict
  obtain ⟨hne, hkey, hfull, hwrite⟩ := hconflict
  obtain ⟨op, hop, hlabel, hid, haccess⟩ := (h.reports earlier hmem hfull).mono hids hkeys hops
  obtain ⟨op', hop', hlabel', hid', haccess'⟩ := hreport
  have hopen : ∀ {label : Name} {txnId : Nat}, label ∈ ledger.active →
      m'.txnIds[label]? = some txnId → txnId ∉ m'.lockMgr.completedTransactions := by
    intro label txnId hin hfound
    obtain ⟨txnId', hfound', hold⟩ := (h.active label).mp hin
    rw [hids, hfound'] at hfound
    cases hfound
    exact hsane.ids.open_ids _ (htm ▸ hold)
  have hholds := hsane.locking.holds op hop (hopen (htidy.reports earlier hmem) hlabel)
  have hholds' := hsane.locking.holds op' hop' (hopen hactive hlabel')
  refine hholds.not_conflict hholds' hsane.locking.compatible ?_ ⟨?_, ?_⟩
  · rw [hids] at hlabel hlabel'
    intro heq
    exact hne (hlabels.injective hlabel (heq ▸ hlabel'))
  · rw [hkey, hid'] at hid
    exact (Option.some.inj hid).symm
  · rw [haccess, haccess']
    exact hwrite

/-- A lookup keeps the books, and so does what follows it. -/
theorem Books.found (h : Books m) {name : Name} (few : Few m')
    (hmade : m'.resourcesMade = (m.ensureResource name).2.resourcesMade)
    (hbegun : m'.tm.begun = m.tm.begun) : Found m name ∧ Books (m.ensureResource name).2 := by
  have hsame := m.ensureResource_same name
  have hfound := h.sane.filed.found few hmade
  have hlookup : Move { op := .show } m (m.ensureResource name).2 := .lookup name
  have hfew : Few (m.ensureResource name).2 := by
    refine ⟨?_, hmade ▸ few.2⟩
    rw [hsame.tm, ← hbegun]
    exact few.1
  have hsane := hlookup.sane hfew h.sane
  exact ⟨hfound, h.quiet hsane (hlookup.labels h.sane hsane h.labels)
    (m.ensureResource_output name) (h.agrees.lookup hfound)⟩

/-- A granted command prints an access that the ledger allows. -/
theorem Books.execute (h : Books m) {c : Issued} {before later : List Issued} {txnId : Nat}
    {access : Access} (label : m.txnIds[c.command.txnLabel]? = some txnId)
    (active : m.tm.isTransactionActive txnId = true)
    (hm' : m' = (((m.ensureResource c.command.resourceName).2.requested txnId
      (m.ensureResource c.command.resourceName).1 access.mode).perform access c txnId
        (m.ensureResource c.command.resourceName).1).setPending (before ++ later))
    (few : Few m') (hsane : Sane m') (hlabels : Labels m') : Books m' := by
  have hsame := m.ensureResource_same c.command.resourceName
  have hperform := perform_same ((m.ensureResource c.command.resourceName).2.requested txnId
    (m.ensureResource c.command.resourceName).1 access.mode) access c txnId
      (m.ensureResource c.command.resourceName).1
  have hmade : m'.resourcesMade = (m.ensureResource c.command.resourceName).2.resourcesMade :=
    hm' ▸ resourcesMade_perform _ access c txnId _
  have htm : m'.tm = (m.ensureResource c.command.resourceName).2.tm := hm' ▸ hperform.1
  have hids : m'.txnIds = (m.ensureResource c.command.resourceName).2.txnIds := hm' ▸ hperform.2
  obtain ⟨hfound, hbooks⟩ := h.found few hmade (by rw [htm, hsame.tm])
  have hlabel := hsame.txnIds ▸ label
  have hactive : (m.ensureResource c.command.resourceName).2.ActiveAs c.command.txnLabel txnId := by
    refine ⟨hlabel, ?_⟩
    rw [hsame.tm, m.tm.mem_getActiveTransactionIds]
    exact m.tm.isTransactionActive_iff.mp active
  have hvalue := hfound.value
  rw [← h.agrees.value, ← m.ensureResource_output c.command.resourceName] at hvalue
  have hfinds := hfound.finds
  have hunnamed := hfound.unnamed
  clear hfound
  generalize (m.ensureResource c.command.resourceName).1 = id at *
  generalize (m.ensureResource c.command.resourceName).2 = found at *
  have hmem : c.command.txnLabel ∈ (Ledger.of found.output).active :=
    (hbooks.agrees.active _).mpr ⟨txnId, hactive⟩
  have hgrants : (Ledger.of found.output).Grants
      ⟨c.command.txnLabel, segments c.command.resourceName, access⟩ := by
    by_cases hname : segments c.command.resourceName = []
    · rintro earlier - ⟨-, hkey, hfull, -⟩
      exact hfull (hkey.trans hname)
    · refine hbooks.agrees.grants hbooks.labels hbooks.legal.tidy hsane ?_ hmem hids htm ?_ ?_
      · rw [hm']
        exact executed_perform hlabel (hfinds hname)
      · rw [hm']
        cases access <;> exact fun _ _ hkey => hkey
      · rw [hm']
        show operations found.trace <+: operations (Main.perform _ access c txnId id).trace
        rw [operations_perform]
        exact List.prefix_append _ _
  cases access with
  | read =>
      have hread := hbooks.agrees.read hlabel hfinds
      rw [hm']
      refine hbooks.prints (hm' ▸ hsane) (hm' ▸ hlabels) rfl ⟨hmem, hvalue, hgrants⟩ ?_
      exact hread.still rfl rfl rfl rfl
  | write =>
      have hwrite := hbooks.agrees.write hbooks.sane.filed.directory.sound hlabel hfinds hunnamed
      rw [hm']
      refine hbooks.prints (hm' ▸ hsane) (hm' ▸ hlabels) rfl ⟨hmem, hgrants⟩ ?_
      exact hwrite.still rfl rfl rfl rfl

theorem Move.books (h : Move cmd m m') (few : Few m') (books : Books m) : Books m' := by
  have hsane := h.sane few books.sane
  have hlabels := h.labels books.sane hsane books.labels
  have htidy := books.legal.tidy
  cases h with
  | reply hreply =>
      obtain ⟨hallows, hnext⟩ := hreply.allows books.agrees
      refine books.prints hsane hlabels rfl hallows ?_
      rw [hnext]
      exact books.agrees.still rfl rfl rfl rfl
  | lookup name => exact (books.found few rfl (by rw [(m.ensureResource_same name).tm])).2
  | @refuse c =>
      have hbegun := congrArg TransactionManager.begun
        (m.ensureResource_same c.command.resourceName).tm
      have hfound := (books.found few rfl hbegun).2
      refine hfound.quiet hsane hlabels rfl ?_
      exact hfound.agrees.still rfl rfl rfl rfl
  | execute _ label active => exact books.execute label active rfl few hsane hlabels
  | drop => exact books.quiet hsane hlabels rfl (books.agrees.still rfl rfl rfl rfl)
  | start hop full fresh =>
      refine books.prints hsane hlabels rfl (books.agrees.unknown fresh) ?_
      have hstart := books.agrees.start books.sane books.labels fresh
      exact hstart.still rfl rfl rfl rfl
  | issue =>
      refine books.quiet hsane hlabels rfl (books.agrees.still rfl rfl rfl ?_)
      show operations (m.trace ++ _) = _
      rw [operations_append]
      cases m.ownerOf cmd.txnLabel <;> exact List.append_nil _
  | @finish outcome txnId txn hop label active =>
      have hmem := m.tm.mem_getActiveTransactionIds.mpr ⟨txn, active⟩
      refine books.prints hsane hlabels rfl ((books.agrees.active _).mpr ⟨txnId, label, hmem⟩) ?_
      have hfinish := books.agrees.finish books.sane books.labels htidy label outcome active
      exact hfinish.still rfl rfl rfl rfl
  | shows =>
      have hbegun := congrArg TransactionManager.begun
        (m.ensureResource_same cmd.resourceName).tm
      obtain ⟨hfound, hbooks⟩ := books.found few rfl hbegun
      refine hbooks.prints hsane hlabels rfl ?_ (hbooks.agrees.still rfl rfl rfl rfl)
      show Main.valueOf _ _ = Ledger.value _ _
      rw [hfound.value, m.ensureResource_output, books.agrees.value]
  | checkpoint =>
      refine books.prints hsane hlabels rfl trivial ?_
      exact books.agrees.still rfl rfl rfl rfl
  | recover =>
      exact books.prints hsane hlabels rfl trivial (books.agrees.recover books.sane _ rfl)

end Main

open Main Ledger

theorem books_after {env : Environment} {input : List Command} (few : Few (after env input)) :
    Books (after env input) := by
  have hbooks : Few (after env input) → Books (after env input) := by
    refine after_moves (I := fun m => Few m → Books m) (fun _ hmove ih few => ?_) fun _ => ?_
    · exact hmove.books few (ih (hmove.few few))
    · exact books_init env
  exact hbooks few

/-- What the engine prints is legal. -/
theorem legal_after {env : Environment} {input : List Command} (few : Few (after env input)) :
    Legal (after env input).output :=
  (books_after few).legal

/-! ## What the lines promise -/

/-- Two transactions on two spellings of a key. -/
def spelledTwice : List Command :=
  [{ op := .begin, txnLabel := ['1'] },
    { op := .write, txnLabel := ['1'], resourceName := ['B', '.', 'C'], value := 5 },
    { op := .begin, txnLabel := ['2'] },
    { op := .commit, txnLabel := ['1'] },
    { op := .read, txnLabel := ['2'], resourceName := ['B', '.', '.', 'C'] },
    { op := .commit, txnLabel := ['1'] },
    { op := .recover },
    { op := .status }]

/-- The lines before the second transaction reads. -/
def linesBeforeRead : List Output :=
  [.help, .started ['1'], .writes ['1'] ['B', '.', 'C'] 5, .started ['2'],
    .completed ['1'] .commit]

def linesAfterRead : List Output := [.notActive ['1'], .recovered 1 1, .status 0 0 1 1]

theorem spelledTwice_output : (after ⟨[], [], []⟩ spelledTwice).output =
    linesBeforeRead ++ .reads ['2'] ['B', '.', '.', 'C'] 5 :: linesAfterRead := rfl

/-- What is printed as the value of a key is the value of the last line before it that
tells of a write to the key. -/
theorem output_finds_last (env : Environment) (input : List Command)
    (few : Few (after env input)) {before later : List Output}
    {line : Output} {key : List Name} {value : Int32}
    (h : (after env input).output = before ++ line :: later)
    (hfinds : line.finds = some (key, value)) : value = latestValue before key :=
  Legal.finds_last (h ▸ legal_after few) hfinds

theorem output_finds_last_spelledTwice : 5 = latestValue linesBeforeRead [['B'], ['C']] :=
  output_finds_last ⟨[], [], []⟩ spelledTwice (by decide) spelledTwice_output rfl

/-- Between two lines that tell of conflicting accesses there is a line that tells of
the end of the first transaction. -/
theorem output_ends_between (env : Environment) (input : List Command) (few : Few (after env input))
    {before between later : List Output} {first second : Output} {a b : Report}
    (h : (after env input).output = before ++ first :: between ++ second :: later)
    (ha : first.report = some a) (hb : second.report = some b) (hconflict : a.Conflict b) :
    ∃ line ∈ between, line.Ends a.label :=
  Legal.ends_between (h ▸ legal_after few) ha hb hconflict

theorem output_ends_between_spelledTwice :
    ∃ line ∈ [.started ['2'], .completed ['1'] .commit], Output.Ends ['1'] line := by
  have houtput : (after ⟨[], [], []⟩ spelledTwice).output = [.help, .started ['1']] ++
      .writes ['1'] ['B', '.', 'C'] 5 :: [.started ['2'], .completed ['1'] .commit] ++
        .reads ['2'] ['B', '.', '.', 'C'] 5 :: linesAfterRead := rfl
  exact output_ends_between _ spelledTwice (by decide) houtput rfl rfl (by decide)

/-- The lines of a transaction come after the line that it starts with and before the
one that it ends with. -/
theorem output_lives (env : Environment) (input : List Command)
    (few : Few (after env input)) {before later : List Output} {line : Output}
    {label : Name} (h : (after env input).output = before ++ line :: later)
    (hacts : line.Acts label) : label ∈ openLabels before ∨
      line = .started label ∧ ∀ earlier ∈ before, ¬ earlier.Acts label :=
  Legal.lives (h ▸ legal_after few) hacts

theorem output_lives_spelledTwice : ['2'] ∈ openLabels linesBeforeRead ∨
    Output.reads ['2'] ['B', '.', '.', 'C'] 5 = .started ['2'] ∧
      ∀ earlier ∈ linesBeforeRead, ¬ earlier.Acts ['2'] :=
  output_lives ⟨[], [], []⟩ spelledTwice (by decide) spelledTwice_output rfl

/-- The messages that a label is not found, exists or is not active are true. -/
theorem output_answers (env : Environment) (input : List Command)
    (few : Few (after env input)) {before later : List Output}
    {line : Output} {label : Name} (h : (after env input).output = before ++ line :: later) :
    (line = .notFound label → .started label ∉ before) ∧
      (line = .alreadyExists label → .started label ∈ before) ∧
      (line = .notActive label → .started label ∈ before ∧ label ∉ openLabels before) :=
  Legal.answers (h ▸ legal_after few)

theorem output_answers_spelledTwice :
    .started ['1'] ∈ linesBeforeRead ++ [.reads ['2'] ['B', '.', '.', 'C'] 5] ∧
      ['1'] ∉ openLabels (linesBeforeRead ++ [.reads ['2'] ['B', '.', '.', 'C'] 5]) := by
  have houtput : (after ⟨[], [], []⟩ spelledTwice).output =
      (linesBeforeRead ++ [.reads ['2'] ['B', '.', '.', 'C'] 5]) ++
        .notActive ['1'] :: [.recovered 1 1, .status 0 0 1 1] := rfl
  exact (output_answers _ spelledTwice (by decide) houtput).2.2 rfl

/-- STATUS counts the transactions of the lines before it. -/
theorem output_status (env : Environment) (input : List Command)
    (few : Few (after env input)) {before later : List Output}
    {active waiting committed aborted : Nat}
    (h : (after env input).output = before ++ .status active waiting committed aborted :: later) :
    active = (openLabels before).length ∧
      committed = before.countP (fun line => line.commits.isSome) ∧
      active + committed + aborted = before.countP (fun line => line.starts.isSome) := by
  have hlegal : Legal (before ++ .status active waiting committed aborted :: later) :=
    h ▸ legal_after few
  rw [Legal, List.append_cons, Arrivals.each_append, Arrivals.each_concat] at hlegal
  obtain ⟨⟨hbefore, rfl, rfl, rfl⟩, -⟩ := hlegal
  exact ⟨congrArg List.length (Legal.active_eq hbefore), committed_of before,
    Legal.balance hbefore⟩

/-- The lines before the STATUS. -/
def linesBeforeStatus : List Output :=
  linesBeforeRead ++ [.reads ['2'] ['B', '.', '.', 'C'] 5, .notActive ['1'], .recovered 1 1]

theorem output_status_spelledTwice :
    0 = (openLabels linesBeforeStatus).length ∧
      1 = linesBeforeStatus.countP (fun line => line.commits.isSome) ∧
      0 + 1 + 1 = linesBeforeStatus.countP (fun line => line.starts.isSome) := by
  have houtput : (after ⟨[], [], []⟩ spelledTwice).output =
      linesBeforeStatus ++ .status 0 0 1 1 :: [] := rfl
  exact output_status _ spelledTwice (by decide) houtput

end TxnEngine
