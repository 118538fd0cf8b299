import TxnEngine.Concurrency.Ancestors
import TxnEngine.Concurrency.Compatibility

/-!
# What the intention locks protect

A transaction that asks for a resource first asks for an intention lock on every
ancestor.  While it keeps those locks, nobody else can lock an ancestor in a
mode that conflicts with its lock below.

It does not always keep them.  A request in another mode replaces the lock found
on a resource whenever the others admit the new mode, also when the new mode is
weaker.  A transaction that writes below a table and then reads below it has
only `intentionShared` on the table.  `NeverWeakens` says that a request does
not do this harm: it does not replace the last lock of the transaction in mode
`intentionExclusive` on a resource below which the transaction holds or awaits
`exclusive`.  A run whose requests all meet it keeps the exclusion
(`hierarchical_exclusion`).
-/

namespace TxnEngine

open LockTable

/-! ## Backed locks -/

/-- The transaction holds `intentionExclusive` or `exclusive` on the resource. -/
def Strong (T : Table Nat Nat LockType) (t a : Nat) : Prop :=
  ∃ m, (t, m) ∈ T.held a ∧ (m = .intentionExclusive ∨ m = .exclusive)

/-- The ancestors of `r` are locked as a lock of mode `m` on `r` needs it. -/
def Backed (anc : Nat → List Nat) (T : Table Nat Nat LockType) (t r : Nat) (m : LockType) :
    Prop :=
  (m = .exclusive → ∀ a ∈ anc r, Strong T t a) ∧
    (m = .shared → ∀ a ∈ anc r, ∃ m', (t, m') ∈ T.held a)

/-- The transaction holds or awaits a lock. -/
def HoldsOrAwaits (T : Table Nat Nat LockType) (t r : Nat) (m : LockType) : Prop :=
  (t, m) ∈ T.held r ∨ (t, m) ∈ T.waiting r

/-- Every lock that an active transaction holds or awaits is backed. -/
def AllBacked (anc : Nat → List Nat) (T : Table Nat Nat LockType) : Prop :=
  ∀ t, t ∉ T.done → ∀ r m, HoldsOrAwaits T t r m → Backed anc T t r m

/-- The transaction holds or awaits `exclusive` below the resource. -/
def WritesBelow (anc : Nat → List Nat) (T : Table Nat Nat LockType) (t b : Nat) : Prop :=
  ∃ r, b ∈ anc r ∧ HoldsOrAwaits T t r .exclusive

/-- What an action must respect for locks to stay backed: new locks and new
requests are backed, and an exchange leaves a strong lock where the owner writes
below. -/
def Sound (anc : Nat → List Nat) (T : Table Nat Nat LockType) : Act Nat Nat LockType → Prop
  | .grant t r m => Backed anc T t r m
  | .enqueue t r m => Backed anc T t r m
  | .convert t r h m => Backed anc T t r m ∧
      (h = .intentionExclusive → m ≠ .intentionExclusive → m ≠ .exclusive →
        WritesBelow anc T t r →
        ∃ others, T.held r = (t, h) ::ₘ others ∧
          ∃ m', (t, m') ∈ others ∧ (m' = .intentionExclusive ∨ m' = .exclusive))
  | _ => True

variable {anc : Nat → List Nat} {T T' : Table Nat Nat LockType} {a : Act Nat Nat LockType}

/-- A strong lock above a writer stays. -/
theorem Strong.step (hs : Step Fits Convertible T a T') (hsound : Sound anc T a) {t b : Nat}
    (ht : t ∉ T.done) (hb : Strong T t b) (hbelow : WritesBelow anc T t b) : Strong T' t b := by
  obtain ⟨m, hm, hmode⟩ := hb
  rcases hs.survives ht hm with hm' | ⟨m', rfl, hconv, hm'⟩
  · exact ⟨m, hm', hmode⟩
  · by_cases hstrong : m' = .intentionExclusive ∨ m' = .exclusive
    · exact ⟨m', hm', hstrong⟩
    · rw [not_or] at hstrong
      have hix : m = .intentionExclusive := hmode.resolve_right hconv
      obtain ⟨others, hothers, m'', hm'', hmode''⟩ :=
        hsound.2 hix hstrong.1 hstrong.2 hbelow
      -- the exchange replaced the very lock that the others stand beside
      cases hs with
      | @convert _ _ _ _ others' active mine old free =>
          have heq : others' = others := by
            rw [hothers] at mine
            exact ((Multiset.cons_inj_right _).mp mine).symm
          refine ⟨m'', ?_, hmode''⟩
          rw [Table.exchange, mem_update_cons, if_pos rfl, heq]
          exact Or.inr hm''

theorem Backed.step (hs : Step Fits Convertible T a T') {t r : Nat}
    {m : LockType} (ht : t ∉ T.done) (hback : Backed anc T t r m)
    (hheld : m = .exclusive → ∀ b ∈ anc r, Strong T t b → Strong T' t b) :
    Backed anc T' t r m := by
  constructor
  · intro hm b hb
    exact hheld hm b hb (hback.1 hm b hb)
  · intro hm b hb
    exact hs.retains ht (hback.2 hm b hb)

/-- A step that is sound keeps every lock backed. -/
theorem AllBacked.step (hs : Step Fits Convertible T a T') (hsound : Sound anc T a)
    (h : AllBacked anc T) : AllBacked anc T' := by
  intro t ht r m hlock
  have ht' : t ∉ T.done := fun hd => ht (hs.done_mono hd)
  -- what was held or awaited before is backed before, and its owner writes below
  have hold : HoldsOrAwaits T t r m → Backed anc T' t r m := by
    intro hbefore
    refine (h t ht' r m hbefore).step hs ht' ?_
    rintro rfl b hb hstrong
    exact hstrong.step hs hsound ht' ⟨r, hb, hbefore⟩
  -- a new lock is backed when it is asked for, and its action exchanges nothing strong
  have hnew : Backed anc T t r m →
      (∀ t' r' h' m', a = .convert t' r' h' m' → m' = m) → Backed anc T' t r m := by
    intro hback hconv
    refine hback.step hs ht' ?_
    rintro rfl b hb ⟨m', hm', hmode⟩
    rcases hs.survives ht' hm' with hm'' | ⟨m'', heq, _, hm''⟩
    · exact ⟨m', hm'', hmode⟩
    · exact ⟨m'', hm'', Or.inr (hconv _ _ _ _ heq)⟩
  rcases hlock with hl | hw
  · rcases hs.origin hl with hl' | ⟨_, _, rfl | ⟨h', rfl⟩ | rfl⟩
    · exact hold (Or.inl hl')
    · exact hnew hsound (by simp)
    · refine hnew hsound.1 ?_
      rintro _ _ _ _ heq
      cases heq
      rfl
    · exact hold (Or.inr hs.woken)
  · rcases hs.waiting_origin hw with hw' | rfl
    · exact hold (Or.inr hw')
    · exact hnew hsound (by simp)

/-! ## Requests that keep the ancestors locked -/

namespace LockManager

/-- The request would replace the last strong lock of the transaction on a
resource below which it writes. -/
def WeakensAt (lm : LockManager) (t r : Nat) (m : LockType) : Prop :=
  m ≠ .intentionExclusive ∧ m ≠ .exclusive ∧
    existingLock (lm.locksOn r) t = some ⟨t, .intentionExclusive⟩ ∧
    upgradeCompatible (lm.locksOn r) t m = true ∧
    (∀ lock ∈ (lm.locksOn r).eraseP fun lock => lock.transactionId == t,
      lock.transactionId = t →
        lock.lockType ≠ .intentionExclusive ∧ lock.lockType ≠ .exclusive) ∧
    WritesBelow lm.ancestors lm.table t r

/-- No request of the loop over the ancestors weakens a lock in the state in
which it is made. -/
def NeverWeakensAll (lm : LockManager) (t : Nat) (m : LockType) : List Nat → Prop
  | [] => True
  | r :: rs => ¬ lm.WeakensAt t r m ∧ ((lm.requestLockOnResource t r m).1 = true →
      (lm.requestLockOnResource t r m).2.NeverWeakensAll t m rs)

/-- No request that `requestLock` makes, on the ancestors or on the resource
itself, weakens a lock in the state in which it is made. -/
def NeverWeakens (lm : LockManager) (t r : Nat) (m : LockType) : Prop :=
  (getAncestorIntentionType m ≠ .none →
      lm.NeverWeakensAll t (getAncestorIntentionType m) (lm.ancestors r).reverse) ∧
    ((lm.ensureAncestorIntentionLocks t r m).1 = true →
      ¬ (lm.ensureAncestorIntentionLocks t r m).2.WeakensAt t r m)

theorem ancestors_congr {lm lm' : LockManager} (h : lm'.resourceParent = lm.resourceParent) :
    lm'.ancestors = lm.ancestors := by
  ext1 r
  rw [ancestors, ancestors, h]

/-- A backed request that weakens nothing is sound. -/
theorem requestLockOnResource_sound {lm : LockManager} {t r : Nat} {m : LockType}
    (hback : Backed lm.ancestors lm.table t r m) (hguard : ¬ lm.WeakensAt t r m) :
    Reaches Fits Convertible (Sound lm.ancestors) lm.table
      (lm.requestLockOnResource t r m).2.table := by
  have hout := lm.requestLockOnResource_outcome t r m
  generalize lm.requestLockOnResource t r m = out at hout
  cases hout with
  | refused => exact .refl
  | already _ _ _ same =>
      rw [same]
      exact .refl
  | @converted h lm' others active mine old weak free split effect =>
      have hstep : Step Fits Convertible lm.table (.convert t r h m) lm'.table := by
        rw [effect]
        exact .convert active split weak (lm.forall_held (upgradeCompatible_iff.mp free))
      refine .single hstep ⟨hback, ?_⟩
      rintro rfl hix hx hbelow
      -- the others are the locks that stay when the first of `t` is erased
      have hothers := lm.others_eq mine split
      have hleft : ¬ ∀ lock ∈ (lm.locksOn r).eraseP fun lock => lock.transactionId == t,
          lock.transactionId = t →
            lock.lockType ≠ .intentionExclusive ∧ lock.lockType ≠ .exclusive :=
        fun hnone => hguard ⟨hix, hx, mine, free, hnone, hbelow⟩
      simp only [not_forall] at hleft
      obtain ⟨lock, hmem, hid, hmode⟩ := hleft
      refine ⟨others, split, lock.lockType, ?_, ?_⟩
      · rw [hothers]
        exact List.mem_map.mpr ⟨lock, hmem, by rw [Lock.entry, hid]⟩
      · rw [← not_or, not_not] at hmode
        exact hmode
  | granted active first free effect =>
      rw [effect]
      exact .single (.grant active (lm.forall_held (existingLock_none first))
        (lm.forall_held (compatible_iff.mp free))) hback
  | waits active effect =>
      rcases effect with same | ⟨absent, effect⟩
      · rw [same]
        exact .refl
      · rw [effect]
        exact .single (.enqueue active absent) hback

/-- Requests in mode `intentionExclusive` keep strong locks strong. -/
theorem strong_requestLockOnResource {lm : LockManager} {t t' r b : Nat}
    (ht : t ∉ lm.completedTransactions) (hb : Strong lm.table t b) :
    Strong (lm.requestLockOnResource t' r .intentionExclusive).2.table t b := by
  obtain ⟨m, hm, hmode⟩ := hb
  rcases lm.requestLockOnResource_step t' r .intentionExclusive with same | ⟨a, hs, hact⟩
  · rw [same]
    exact ⟨m, hm, hmode⟩
  · rcases hs.survives ht hm with hm' | ⟨m', rfl, _, hm'⟩
    · exact ⟨m, hm', hmode⟩
    · rcases hact with heq | ⟨_, heq⟩ | heq <;> cases heq
      exact ⟨_, hm', Or.inl rfl⟩

theorem retains_requestLockOnResource {lm : LockManager} {t t' r b : Nat} {m : LockType}
    (ht : t ∉ lm.completedTransactions) (hb : ∃ m', (t, m') ∈ lm.table.held b) :
    ∃ m', (t, m') ∈ (lm.requestLockOnResource t' r m).2.table.held b := by
  refine (lm.requestLockOnResource_reaches t' r m).retains ?_ hb
  rw [requestLockOnResource_done]
  exact ht

/-- What the loop over the ancestors leaves: the parents and the completed set
are the same, its actions were sound, and if it was granted it holds a lock on
each resource it asked for, and a strong one if it asked for
`intentionExclusive`.  `Q` collects the resources that are done with. -/
theorem requestAll_sound {t : Nat} {m : LockType} (hm : m = .intentionExclusive ∨
    m = .intentionShared) : ∀ (rs : List Nat) (lm : LockManager),
    t ∉ lm.completedTransactions → lm.NeverWeakensAll t m rs →
      (lm.requestAll t m rs).2.resourceParent = lm.resourceParent ∧
      (lm.requestAll t m rs).2.table.done = lm.table.done ∧
      Reaches Fits Convertible (Sound lm.ancestors) lm.table (lm.requestAll t m rs).2.table ∧
      ∀ Q : List Nat, (∀ b ∈ Q, ∃ m', (t, m') ∈ lm.table.held b) →
        (m = .intentionExclusive → ∀ b ∈ Q, Strong lm.table t b) →
        (lm.requestAll t m rs).1 = true → ∀ b ∈ Q ++ rs,
          (∃ m', (t, m') ∈ (lm.requestAll t m rs).2.table.held b) ∧
          (m = .intentionExclusive → Strong (lm.requestAll t m rs).2.table t b)
  | [], lm, _, _ => by
      refine ⟨rfl, rfl, .refl, fun Q hQ hQs _ b hb => ?_⟩
      rw [List.append_nil] at hb
      exact ⟨hQ b hb, fun hx => hQs hx b hb⟩
  | r :: rs, lm, ht, hguard => by
      have hback : Backed lm.ancestors lm.table t r m := by
        rcases hm with rfl | rfl <;> constructor <;> intro h <;> cases h
      have hreach := requestLockOnResource_sound hback hguard.1
      have hdone := lm.requestLockOnResource_done t r m
      have hparent := lm.requestLockOnResource_resourceParent t r m
      have hheld := lm.held_of_requestLockOnResource (t := t) (r := r) (m := m)
      have hstrong : m = .intentionExclusive → ∀ b, Strong lm.table t b →
          Strong (lm.requestLockOnResource t r m).2.table t b := by
        rintro rfl b
        exact strong_requestLockOnResource ht
      have hretains : ∀ b, (∃ m', (t, m') ∈ lm.table.held b) →
          ∃ m', (t, m') ∈ (lm.requestLockOnResource t r m).2.table.held b :=
        fun _ => retains_requestLockOnResource ht
      have hrest := hguard.2
      rw [requestAll]
      cases hreq : lm.requestLockOnResource t r m with
      | mk granted lm' =>
          simp only [hreq] at hreach hdone hparent hheld hstrong hretains hrest
          cases granted with
          | false => exact ⟨hparent, hdone, hreach, fun _ _ _ h => by cases h⟩
          | true =>
              have ht' : t ∉ lm'.completedTransactions := by
                rw [← mem_table_done, hdone]
                exact ht
              obtain ⟨ihp, ihd, ihr, ihq⟩ := requestAll_sound hm rs lm' ht' (hrest rfl)
              rw [ancestors_congr hparent] at ihr
              refine ⟨ihp.trans hparent, ihd.trans hdone, hreach.trans ihr, ?_⟩
              intro Q hQ hQs hgranted b hb
              obtain ⟨m0, hm0, hmode0⟩ := hheld rfl
              refine ihq (Q ++ [r]) ?_ ?_ hgranted b ?_
              · intro c hc
                rcases List.mem_append.mp hc with hc | hc
                · exact hretains c (hQ c hc)
                · rw [List.mem_singleton.mp hc]
                  exact ⟨m0, hm0⟩
              · rintro rfl c hc
                rcases List.mem_append.mp hc with hc | hc
                · exact hstrong rfl c (hQs rfl c hc)
                · rw [List.mem_singleton.mp hc]
                  exact ⟨m0, hm0, hmode0⟩
              · simpa using hb

/-- A request that never weakens a lock is sound. -/
theorem requestLock_sound {lm : LockManager} {t r : Nat} {m : LockType}
    (hguard : t ∉ lm.completedTransactions → lm.NeverWeakens t r m) :
    (lm.requestLock t r m).2.resourceParent = lm.resourceParent ∧
      Reaches Fits Convertible (Sound lm.ancestors) lm.table (lm.requestLock t r m).2.table := by
  rw [requestLock]
  split
  · exact ⟨rfl, .refl⟩
  · next ht =>
      obtain ⟨hall, hlast⟩ := hguard ht
      -- the ancestors are locked, or the request stops there
      have hens : (lm.ensureAncestorIntentionLocks t r m).2.resourceParent = lm.resourceParent ∧
          Reaches Fits Convertible (Sound lm.ancestors) lm.table
            (lm.ensureAncestorIntentionLocks t r m).2.table ∧
          ((lm.ensureAncestorIntentionLocks t r m).1 = true →
            Backed lm.ancestors (lm.ensureAncestorIntentionLocks t r m).2.table t r m) := by
        rw [ensureAncestorIntentionLocks]
        split
        · next hnone =>
            refine ⟨rfl, .refl, fun _ => ⟨?_, ?_⟩⟩
            · rintro rfl
              simp [getAncestorIntentionType] at hnone
            · rintro rfl
              simp [getAncestorIntentionType] at hnone
        · next hnone =>
            have hmode : getAncestorIntentionType m = .intentionExclusive ∨
                getAncestorIntentionType m = .intentionShared := by
              cases m <;> simp [getAncestorIntentionType] at hnone ⊢
            obtain ⟨hp, _, hr, hq⟩ := requestAll_sound hmode _ lm ht (hall hnone)
            refine ⟨hp, hr, fun hgranted => ?_⟩
            have hlocks := hq [] (by simp) (by simp) hgranted
            constructor
            · rintro rfl b hb
              exact (hlocks b (by simpa using hb)).2 rfl
            · rintro rfl b hb
              exact (hlocks b (by simpa using hb)).1
      revert hlast hens
      cases lm.ensureAncestorIntentionLocks t r m with
      | mk ok lm' =>
          rintro hlast ⟨hp, hr, hback⟩
          cases ok with
          | false => exact ⟨hp, hr⟩
          | true =>
              refine ⟨(lm'.requestLockOnResource_resourceParent t r m).trans hp, hr.trans ?_⟩
              have hb := hback rfl
              rw [← ancestors_congr hp] at hb ⊢
              exact requestLockOnResource_sound hb (hlast rfl)

/-! ## Runs -/

/-- A request never weakens a lock above a writer.  Other operations meet the
guard. -/
def WeakenGuard (lm : LockManager) : LockOp → Prop
  | .requestLock t r m => t ∉ lm.completedTransactions → lm.NeverWeakens t r m
  | _ => True

/-- The resources an operation asks for: the resource of a request and its
ancestors. -/
def asked (lm : LockManager) : LockOp → List Nat
  | .requestLock _ r _ => r :: lm.ancestors r
  | _ => []

/-- A parent is set only for a resource that was never asked for, and closes no
cycle.  `requested` collects the resources asked for so far. -/
def FreshParents : List Nat → LockManager → List LockOp → Prop
  | _, _, [] => True
  | requested, lm, op :: ops =>
      (∀ child parent, op = .setResourceParent child parent →
        child ∉ requested ∧ child ≠ parent ∧ child ∉ lm.ancestors parent) ∧
      FreshParents (requested ++ lm.asked op) (lm.step op) ops

/-- An active transaction that holds `exclusive` keeps the others from `shared`
and `exclusive` above it, and one that holds `shared` keeps them from
`exclusive`. -/
def HierarchicalExclusion (lm : LockManager) : Prop :=
  ∀ t t' r a, t ≠ t' → t ∉ lm.completedTransactions → t' ∉ lm.completedTransactions →
    a ∈ lm.ancestors r →
      ((⟨t, .exclusive⟩ : Lock) ∈ lm.locksOn r →
        (⟨t', .shared⟩ : Lock) ∉ lm.locksOn a ∧ (⟨t', .exclusive⟩ : Lock) ∉ lm.locksOn a) ∧
      ((⟨t, .shared⟩ : Lock) ∈ lm.locksOn r → (⟨t', .exclusive⟩ : Lock) ∉ lm.locksOn a)

/-- A parent set for a resource that nobody holds or awaits changes no chain
above a lock. -/
theorem allBacked_setResourceParent {lm : LockManager} {child parent : Nat}
    (hfree : ¬ lm.table.Used child) (h : AllBacked lm.ancestors lm.table) :
    AllBacked (lm.setResourceParent child parent).ancestors lm.table := by
  intro t ht r m hlock
  have hback := h t ht r m hlock
  have hne : child ≠ r := by
    intro heq
    exact hfree ⟨(t, m), heq ▸ hlock⟩
  -- a backed lock has a lock of its owner on every ancestor
  have hchain : (∀ a ∈ lm.ancestors r, ∃ m', (t, m') ∈ lm.table.held a) →
      (lm.setResourceParent child parent).ancestors r = lm.ancestors r := by
    intro hheld
    refine ancestors_setResourceParent hne fun hmem => ?_
    obtain ⟨m', hm'⟩ := hheld child hmem
    exact hfree ⟨(t, m'), Or.inl hm'⟩
  constructor
  · intro hm
    rw [hchain fun a ha => (hback.1 hm a ha).imp fun _ h => h.1]
    exact hback.1 hm
  · intro hm
    rw [hchain (hback.2 hm)]
    exact hback.2 hm

theorem allBacked_requestLock {lm : LockManager} {t r : Nat} {m : LockType}
    (hguard : lm.WeakenGuard (.requestLock t r m)) (h : AllBacked lm.ancestors lm.table) :
    AllBacked (lm.requestLock t r m).2.ancestors (lm.requestLock t r m).2.table := by
  obtain ⟨hparent, hreach⟩ := requestLock_sound hguard
  rw [ancestors_congr hparent]
  exact hreach.invariant (fun hs hsound hI => hI.step hs hsound) h

/-- Releases exchange no lock and add no request. -/
theorem allBacked_completion {anc : Nat → List Nat} {lm lm' : LockManager} {t : Nat}
    (hreach : Reaches Fits Convertible (ByCompletion t) lm.table lm'.table)
    (h : AllBacked anc lm.table) : AllBacked anc lm'.table := by
  refine hreach.invariant (fun hs hact hI => hI.step hs ?_) h
  rcases hact with rfl | rfl | ⟨_, rfl⟩ | ⟨_, _, _, rfl⟩ <;> exact trivial

/-- One operation keeps every lock backed. -/
theorem allBacked_step {lm : LockManager} {op : LockOp} (hguard : lm.WeakenGuard op)
    (hfree : ∀ child parent, op = .setResourceParent child parent → ¬ lm.table.Used child)
    (h : AllBacked lm.ancestors lm.table) :
    AllBacked (lm.step op).ancestors (lm.step op).table := by
  cases op with
  | setResourceParent child parent => exact allBacked_setResourceParent (hfree _ _ rfl) h
  | requestLock t r m => exact allBacked_requestLock hguard h
  | releaseLock t r =>
      have hparent : (lm.step (.releaseLock t r)).resourceParent = lm.resourceParent :=
        (lm.releaseLock_rest t r).2
      rw [ancestors_congr hparent]
      exact allBacked_completion (lm.releaseLock_reaches t r) h
  | completeTransaction t =>
      have hparent : (lm.step (.completeTransaction t)).resourceParent = lm.resourceParent :=
        lm.completeTransaction_resourceParent t
      rw [ancestors_congr hparent]
      exact allBacked_completion (lm.completeTransaction_reaches t) h

/-- Releases bring no resource into use. -/
theorem used_completion {lm lm' : LockManager} {t r : Nat}
    (hreach : Reaches Fits Convertible (ByCompletion t) lm.table lm'.table)
    (h : lm'.table.Used r) : lm.table.Used r := by
  refine hreach.invariant (I := fun T => T.Used r → lm.table.Used r) ?_ id h
  intro T T' a hs hact hI hused
  rcases hs.used hused with hold | ⟨t', m', hnew⟩
  · exact hI hold
  · rcases hact with rfl | rfl | ⟨_, rfl⟩ | ⟨_, _, _, rfl⟩ <;>
      rcases hnew with heq | ⟨_, heq⟩ | heq <;> cases heq

/-- A resource in use after an operation was in use before, or was asked for. -/
theorem used_step {lm : LockManager} {op : LockOp} {r : Nat} (h : (lm.step op).table.Used r) :
    lm.table.Used r ∨ r ∈ lm.asked op := by
  cases op with
  | setResourceParent => exact Or.inl h
  | requestLock t r' m =>
      refine (lm.requestLock_reaches t r' m).invariant
        (I := fun T => T.Used r → lm.table.Used r ∨ r ∈ r' :: lm.ancestors r') ?_ Or.inl h
      rintro T T' a hs ⟨r'', hr'', m', hact⟩ hI hused
      rcases hs.used hused with hold | ⟨t'', m'', hnew⟩
      · exact hI hold
      · have heq : r = r'' := by
          rcases hact with rfl | ⟨_, rfl⟩ | rfl <;> rcases hnew with heq | ⟨_, heq⟩ | heq <;>
            cases heq <;> rfl
        exact Or.inr (heq ▸ hr'')
  | releaseLock t r' => exact Or.inl (used_completion (lm.releaseLock_reaches t r') h)
  | completeTransaction t => exact Or.inl (used_completion (lm.completeTransaction_reaches t) h)

/-! ## Runs -/

/-- Along a run that meets the guards every lock stays backed. -/
theorem allBacked_run : ∀ {requested : List Nat} {lm : LockManager} {ops : List LockOp},
    (∀ r, lm.table.Used r → r ∈ requested) → FreshParents requested lm ops →
    Runs.Guarded step WeakenGuard lm ops → AllBacked lm.ancestors lm.table →
    Runs.Always step (fun lm => AllBacked lm.ancestors lm.table) lm ops
  | _, _, [], _, _, _, h => (Runs.always_nil _).mpr h
  | requested, lm, op :: ops, hused, hfresh, hg, h => by
      have hfree : ∀ child parent, op = .setResourceParent child parent →
          ¬ lm.table.Used child := by
        intro child parent hop hchild
        exact (hfresh.1 child parent hop).1 (hused child hchild)
      have hused' : ∀ r, (lm.step op).table.Used r → r ∈ requested ++ lm.asked op := by
        intro r hr
        rcases used_step hr with hold | hnew
        · exact List.mem_append_left _ (hused r hold)
        · exact List.mem_append_right _ hnew
      refine (Runs.always_cons _ _ _).mpr ⟨h, ?_⟩
      exact allBacked_run hused' hfresh.2 hg.2 (allBacked_step hg.1 hfree h)

/-- Backed and compatible locks exclude across levels. -/
theorem hierarchicalExclusion_of_backed {lm : LockManager}
    (hback : AllBacked lm.ancestors lm.table) (hcompat : lm.table.Compatible Fits) :
    lm.HierarchicalExclusion := by
  intro t t' r a hne ht _ ha
  constructor
  · intro hx
    obtain ⟨m, hm, hmode⟩ := (hback t ht r .exclusive (Or.inl (lm.mem_table_held.mpr hx))).1
      rfl a ha
    have hclash : ∀ m', ¬ Fits m m' → (⟨t', m'⟩ : Lock) ∉ lm.locksOn a :=
      fun m' hno hlock => hno (hcompat a t t' m m' hm (lm.mem_table_held.mpr hlock) hne)
    rcases hmode with rfl | rfl
    · exact ⟨hclash _ (by simp [Fits, isCompatible]), hclash _ (by simp [Fits, isCompatible])⟩
    · exact ⟨hclash _ (not_fits_exclusive _), hclash _ (not_fits_exclusive _)⟩
  · intro hs hlock
    obtain ⟨m, hm⟩ := (hback t ht r .shared (Or.inl (lm.mem_table_held.mpr hs))).2 rfl a ha
    have hfits := hcompat a t' t _ m (lm.mem_table_held.mpr hlock) hm hne.symm
    exact not_fits_exclusive m hfits

/-- Hierarchical exclusion in every state of a run whose parents are fresh and
whose requests never weaken a lock above a writer. -/
theorem hierarchical_exclusion (alloc : List Nat) (ops : List LockOp)
    (hfresh : FreshParents [] (empty alloc) ops)
    (hg : Runs.Guarded step WeakenGuard (empty alloc) ops) :
    Runs.Always step HierarchicalExclusion (empty alloc) ops := by
  have hused : ∀ r, (empty alloc).table.Used r → r ∈ ([] : List Nat) := by
    rintro r ⟨p, hp⟩
    simp [table_empty] at hp
  have hempty : AllBacked (empty alloc).ancestors (empty alloc).table := by
    intro t _ r m hlock
    simp [HoldsOrAwaits, table_empty] at hlock
  intro js hjs
  exact hierarchicalExclusion_of_backed (allBacked_run hused hfresh hg hempty js hjs)
    (compatible_run alloc js)

/-- Transaction 1 writes row 2 of table 1, and transaction 2 asks for the whole
table. -/
def tableRowOps : List LockOp :=
  [.setResourceParent 2 1, .requestLock 1 2 .exclusive, .requestLock 2 1 .shared]

theorem hierarchical_exclusion_tableRow :
    Runs.Always step HierarchicalExclusion (empty []) tableRowOps := by
  refine hierarchical_exclusion [] tableRowOps ⟨?_, ?_, ?_, trivial⟩ ⟨trivial, ?_, ?_, trivial⟩
  · rintro _ _ ⟨⟩
    decide
  · rintro _ _ ⟨⟩
  · rintro _ _ ⟨⟩
  · intro _
    refine ⟨fun _ => ⟨fun hw => ?_, fun _ => trivial⟩, fun _ hw => ?_⟩
    · exact absurd hw.2.2.1 (by decide)
    · exact absurd hw.2.2.1 (by decide)
  · intro _
    exact ⟨fun _ => trivial, fun _ hw => absurd hw.2.2.1 (by decide)⟩

/-- Transaction 1 writes row 2 and then reads row 3 of table 1.  The read leaves
it `intentionShared` on the table, and transaction 2 is given the table. -/
def siblingOps : List LockOp :=
  [.setResourceParent 2 1, .setResourceParent 3 1, .requestLock 1 2 .exclusive,
    .requestLock 1 3 .shared, .requestLock 2 1 .shared]

/-- Fresh parents alone do not give the exclusion. -/
theorem hierarchical_exclusion_fails :
    ¬ ∀ (alloc : List Nat) (ops : List LockOp), FreshParents [] (empty alloc) ops →
      Runs.Always step HierarchicalExclusion (empty alloc) ops := by
  intro h
  have hfresh : FreshParents [] (empty []) siblingOps := by
    refine ⟨?_, ?_, ?_, ?_, ?_, trivial⟩ <;> rintro _ _ ⟨⟩ <;> decide
  have hlast := (h [] siblingOps hfresh).last
  have hclash := (hlast 1 2 2 1 (by decide) (by decide) (by decide) (by decide)).1 (by decide)
  exact hclash.1 (by decide)

end LockManager

end TxnEngine
