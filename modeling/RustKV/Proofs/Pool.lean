import RustKV.Transport.Pool

/-!
# Who holds a connection

A connection belongs to one RPC or lies idle under one address, never both:
each step leaves the connections where they are or drops some, and hands at
most one to a new holder, who is then the only one (`Does`, `Holds`). The cap
on idle connections is in the one place that adds any.

Which addresses have idle connections is another matter. `set_peers` prunes
the pool, but an RPC that resolved its address before puts its connection back
under the old one afterwards. The pool holds addresses of the book only,
exactly as long as no connection comes back to an address that has left it.
-/

namespace RustKV.Http

open Rust HttpTransport

variable {s s' s₀ : State} {a : Action} {addr : Addr} {stream c : Stream}
  {trace : List (State × Action)}

/-! ## The idle connections after each operation -/

theorem idle_setPeers (t : HttpTransport) (peers : BTreeMap NodeId Addr)
    (addr : Addr) : (t.setPeers peers).idle addr =
      if Lists peers addr then t.idle addr else [] := by
  simp only [idle, setPeers, BTreeMap.get_retain]
  cases t.pool.get addr with
  | none => simp
  | some l => cases Lists peers addr <;> simp [Option.filter]

theorem idle_checkout (t : HttpTransport) (addr : Addr) :
    (t.checkout addr).1 = (t.idle addr).getLast? ∧
      (t.checkout addr).2.peers = t.peers ∧
      (t.checkout addr).2.idle =
        Function.update t.idle addr (t.idle addr).dropLast := by
  rw [checkout]
  cases h : t.pool.get addr with
  | none =>
      have hnil : t.idle addr = [] := by simp [idle, h]
      refine ⟨by rw [hnil]; rfl, rfl, ?_⟩
      rw [hnil, List.dropLast_nil, ← hnil, Function.update_eq_self]
  | some l =>
      have hl : t.idle addr = l := by simp [idle, h]
      refine ⟨by rw [hl], rfl, ?_⟩
      funext b
      rw [hl]
      by_cases hb : b = addr
      · subst hb
        simp [idle, BTreeMap.get_insert]
      · simp [idle, BTreeMap.get_insert, hb]

theorem idle_checkin (t : HttpTransport) (addr : Addr) (stream : Stream) :
    (t.checkin addr stream).idle = Function.update t.idle addr
      (if (t.idle addr).length < maxIdlePerPeer then t.idle addr ++ [stream]
        else t.idle addr) := by
  funext b
  by_cases hb : b = addr
  · subst hb
    simp [checkin, idle, BTreeMap.get_insert]
  · simp [checkin, idle, BTreeMap.get_insert, hb]

/-! ## What a step does -/

def State.owned (s : State) (call : Nat) : Option Stream :=
  (s.calls call).bind Stage.stream?

theorem State.owned_goto (s : State) (call : Nat) (stage : Option Stage) :
    (s.goto call stage).owned =
      Function.update s.owned call (stage.bind Stage.stream?) := by
  funext b
  by_cases hb : b = call
  · subst hb
    simp [owned, goto]
  · simp [owned, goto, hb]

/-- A step, as far as books, pools and owners go. -/
inductive Does (s s' : State) : Action → Prop
  | prune (peers : BTreeMap NodeId Addr)
      (ho : s'.owned = s.owned) (hn : s'.opened = s.opened)
      (hp : s'.transport.peers = peers)
      (hi : ∀ addr, s'.transport.idle addr =
        if Lists peers addr then s.transport.idle addr else []) :
      Does s s' (.setPeers peers)
  /-- A call keeps its connection or drops it. -/
  | keep {a : Action} (call : Nat) (c : Option Stream)
      (ha : ∀ call, a ≠ .checkin call)
      (hc : ∀ stream, c = some stream → s.owned call = some stream)
      (ho : s'.owned = Function.update s.owned call c)
      (hn : s'.opened = s.opened)
      (hp : s'.transport.peers = s.transport.peers)
      (hi : s'.transport.idle = s.transport.idle) : Does s s' a
  | take {call : Nat} (addr : Addr)
      (ho : s'.owned = Function.update s.owned call
        (s.transport.idle addr).getLast?)
      (hn : s'.opened = s.opened)
      (hp : s'.transport.peers = s.transport.peers)
      (hi : s'.transport.idle = Function.update s.transport.idle addr
        (s.transport.idle addr).dropLast) : Does s s' (.checkout call)
  | dial {call : Nat} {connected : Bool}
      (ho : s'.owned = Function.update s.owned call (some s.opened))
      (hn : s'.opened = s.opened + 1)
      (hp : s'.transport.peers = s.transport.peers)
      (hi : s'.transport.idle = s.transport.idle) :
      Does s s' (.connect call connected)
  | put {call : Nat} (addr : Addr) (stream : Stream)
      (hcall : s.calls call = some (.returning addr stream))
      (ho : s'.owned = Function.update s.owned call none)
      (hn : s'.opened = s.opened)
      (hp : s'.transport.peers = s.transport.peers)
      (hi : s'.transport.idle = Function.update s.transport.idle addr
        (if (s.transport.idle addr).length < maxIdlePerPeer then
          s.transport.idle addr ++ [stream]
        else s.transport.idle addr)) : Does s s' (.checkin call)

theorem Does.goto {call : Nat} {stage : Option Stage}
    (ha : ∀ call, a ≠ .checkin call)
    (h : ∀ stream, stage.bind Stage.stream? = some stream →
      s.owned call = some stream) : Does s (s.goto call stage) a :=
  .keep call _ ha h (s.owned_goto call stage) rfl rfl rfl

theorem Does.answered {call : Nat} {addr : Addr} {stream : Stream}
    {reusable : Bool} (ha : ∀ call, a ≠ .checkin call)
    (h : s.owned call = some stream) :
    Does s (s.goto call (if reusable then some (.returning addr stream)
      else none)) a := by
  refine .goto ha fun c hc => ?_
  cases reusable with
  | true =>
      cases Option.some.inj hc
      exact h
  | false => cases hc

theorem does_of_step (h : s.step a = some s') : Does s s' a := by
  cases a with
  | setPeers peers =>
      cases Option.some.inj h
      exact .prune peers rfl rfl rfl (idle_setPeers s.transport peers)
  | send call peer =>
      simp only [State.step] at h
      split at h
      · cases Option.some.inj h
        exact .goto (by simp) (by simp [Stage.stream?])
      · cases Option.some.inj h
        refine .keep call (s.owned call) (by simp) (fun _ hc => hc) ?_ rfl rfl
          rfl
        rw [Function.update_eq_self]
      · cases h
  | checkout call =>
      simp only [State.step] at h
      split at h
      · next addr hcall =>
          cases Option.some.inj h
          obtain ⟨hout, hpeers, hidle⟩ := idle_checkout s.transport addr
          refine .take addr ?_ rfl hpeers hidle
          rw [State.owned_goto, ← hout]
          congr 1
          cases (s.transport.checkout addr).1 <;> rfl
      · cases h
  | connect call connected =>
      simp only [State.step] at h
      split at h
      · next addr hcall =>
          split at h
          · cases Option.some.inj h
            exact .dial (State.owned_goto _ call _) rfl rfl rfl
          · cases Option.some.inj h
            exact .goto (by simp) (by simp)
      · cases h
  | exchange call result =>
      simp only [State.step] at h
      split at h
      · next addr stream _ reusable hcall =>
          cases Option.some.inj h
          exact .answered (by simp) (by simp [State.owned, hcall,
            Stage.stream?])
      · cases Option.some.inj h
        exact .goto (by simp) (by simp [Stage.stream?])
      · next addr stream _ reusable hcall =>
          cases Option.some.inj h
          exact .answered (by simp) (by simp [State.owned, hcall,
            Stage.stream?])
      · cases Option.some.inj h
        exact .goto (by simp) (by simp)
      · cases h
  | checkin call =>
      simp only [State.step] at h
      split at h
      · next addr stream hcall =>
          cases Option.some.inj h
          exact .put addr stream hcall (State.owned_goto _ call none) rfl rfl
            (idle_checkin s.transport addr stream)
      · cases h
  | cancel call =>
      simp only [State.step] at h
      split at h
      all_goals first
        | (cases Option.some.inj h; exact .goto (by simp) (by simp))
        | cases h

/-! ## One holder at a time -/

inductive Holder where
  | call (id : Nat)
  | idle (addr : Addr)
  deriving DecidableEq

def State.Holds (s : State) (c : Stream) : Holder → Prop
  | .call id => s.owned id = some c
  | .idle addr => c ∈ s.transport.idle addr

structure Inv (s : State) : Prop where
  /-- No connection has two holders. -/
  once : ∀ {c h h'}, s.Holds c h → s.Holds c h' → h = h'
  nodup : ∀ addr, (s.transport.idle addr).Nodup
  opened : ∀ {c h}, s.Holds c h → c < s.opened
  cap : ∀ addr, (s.transport.idle addr).length ≤ maxIdlePerPeer

theorem Inv.init (peers : BTreeMap NodeId Addr) : Inv (State.init peers) := by
  have hnone : ∀ c h, ¬ (State.init peers).Holds c h := by
    intro c h
    cases h with
    | call id => exact fun hc => by cases hc
    | idle addr => exact List.not_mem_nil
  exact {
    once := fun h => absurd h (hnone _ _)
    nodup := fun addr => List.nodup_nil
    opened := fun h => absurd h (hnone _ _)
    cap := fun addr => Nat.zero_le _ }

/-- Holders change by dropping connections and by handing at most one, `c₀`,
to `h₀`, from which on nobody else has it. -/
theorem Inv.handOver (h : Inv s) {c₀ : Stream} {h₀ : Holder}
    (hmoves : ∀ c k, s'.Holds c k → (c = c₀ ∧ k = h₀) ∨
      (s.Holds c k ∧ c ≠ c₀))
    (hc₀ : c₀ < s'.opened) (hn : s.opened ≤ s'.opened)
    (hnodup : ∀ addr, (s'.transport.idle addr).Nodup)
    (hcap : ∀ addr, (s'.transport.idle addr).length ≤ maxIdlePerPeer) :
    Inv s' where
  once := by
    intro c k k' hk hk'
    rcases hmoves c k hk with ⟨rfl, rfl⟩ | ⟨hk, hne⟩
    · rcases hmoves c k' hk' with ⟨-, rfl⟩ | ⟨-, hne⟩
      · rfl
      · exact absurd rfl hne
    · rcases hmoves c k' hk' with ⟨hc, -⟩ | ⟨hk', -⟩
      · exact absurd hc hne
      · exact h.once hk hk'
  nodup := hnodup
  opened := by
    intro c k hk
    rcases hmoves c k hk with ⟨rfl, -⟩ | ⟨hk, -⟩
    · exact hc₀
    · exact (h.opened hk).trans_le hn
  cap := hcap

theorem Inv.shrink (h : Inv s)
    (ho : ∀ id c, s'.owned id = some c → s.owned id = some c)
    (hi : ∀ addr, (s'.transport.idle addr).Sublist (s.transport.idle addr))
    (hn : s'.opened = s.opened) : Inv s' := by
  have hkeep : ∀ {c k}, s'.Holds c k → s.Holds c k := by
    intro c k hk
    cases k with
    | call id => exact ho id c hk
    | idle addr => exact (hi addr).subset hk
  exact {
    once := fun hk hk' => h.once (hkeep hk) (hkeep hk')
    nodup := fun addr => (h.nodup addr).sublist (hi addr)
    opened := fun hk => hn ▸ h.opened (hkeep hk)
    cap := fun addr => (hi addr).length_le.trans (h.cap addr) }

theorem Inv.keep (h : Inv s) {call : Nat} {c : Option Stream}
    (hc : ∀ stream, c = some stream → s.owned call = some stream)
    (ho : s'.owned = Function.update s.owned call c)
    (hn : s'.opened = s.opened)
    (hi : ∀ addr, (s'.transport.idle addr).Sublist
      (s.transport.idle addr)) : Inv s' := by
  refine h.shrink ?_ hi hn
  intro id stream hid
  rw [ho] at hid
  by_cases hcall : id = call
  · subst hcall
    rw [Function.update_self] at hid
    exact hc stream hid
  · rwa [Function.update_of_ne hcall] at hid

theorem Inv.take (h : Inv s) {call : Nat} {last : Stream}
    (hlast : (s.transport.idle addr).getLast? = some last)
    (ho : s'.owned = Function.update s.owned call (some last))
    (hn : s'.opened = s.opened)
    (hi : s'.transport.idle = Function.update s.transport.idle addr
      (s.transport.idle addr).dropLast) : Inv s' := by
  have hidle : s.transport.idle addr =
      (s.transport.idle addr).dropLast ++ [last] :=
    (List.dropLast_append_getLast? last hlast).symm
  have hheld : s.Holds last (.idle addr) := List.mem_of_getLast? hlast
  have hnodup := h.nodup addr
  rw [hidle, List.nodup_append] at hnodup
  have hmoves : ∀ c k, s'.Holds c k → (c = last ∧ k = .call call) ∨
      (s.Holds c k ∧ c ≠ last) := by
    intro c k hk
    -- whoever else holds `last` afterwards held it before, beside the pool
    have helse : k ≠ .idle addr → s.Holds c k → s.Holds c k ∧ c ≠ last := by
      intro hne hk
      refine ⟨hk, ?_⟩
      rintro rfl
      exact hne (h.once hk hheld)
    cases k with
    | call id =>
        rw [State.Holds, ho] at hk
        by_cases hid : id = call
        · subst hid
          rw [Function.update_self] at hk
          exact .inl ⟨(Option.some.inj hk).symm, rfl⟩
        · rw [Function.update_of_ne hid] at hk
          exact .inr (helse (by simp) hk)
    | idle b =>
        rw [State.Holds, hi] at hk
        by_cases hb : b = addr
        · subst hb
          rw [Function.update_self] at hk
          refine .inr ⟨List.mem_of_mem_dropLast hk, ?_⟩
          exact hnodup.2.2 c hk last (List.mem_singleton_self last)
        · rw [Function.update_of_ne hb] at hk
          exact .inr (helse (by simpa using hb) hk)
  refine h.handOver hmoves (hn ▸ h.opened hheld) hn.ge ?_ ?_
  · intro b
    rw [hi]
    by_cases hb : b = addr
    · subst hb
      rw [Function.update_self]
      exact hnodup.1
    · rw [Function.update_of_ne hb]
      exact h.nodup b
  · intro b
    rw [hi]
    by_cases hb : b = addr
    · subst hb
      rw [Function.update_self, List.length_dropLast]
      have := h.cap b
      omega
    · rw [Function.update_of_ne hb]
      exact h.cap b

theorem Inv.dial (h : Inv s) {call : Nat}
    (ho : s'.owned = Function.update s.owned call (some s.opened))
    (hn : s'.opened = s.opened + 1)
    (hi : s'.transport.idle = s.transport.idle) : Inv s' := by
  have hmoves : ∀ c k, s'.Holds c k → (c = s.opened ∧ k = .call call) ∨
      (s.Holds c k ∧ c ≠ s.opened) := by
    intro c k hk
    have hold : s.Holds c k → s.Holds c k ∧ c ≠ s.opened :=
      fun hk => ⟨hk, (h.opened hk).ne⟩
    cases k with
    | call id =>
        rw [State.Holds, ho] at hk
        by_cases hid : id = call
        · subst hid
          rw [Function.update_self] at hk
          exact .inl ⟨(Option.some.inj hk).symm, rfl⟩
        · rw [Function.update_of_ne hid] at hk
          exact .inr (hold hk)
    | idle b =>
        rw [State.Holds, hi] at hk
        exact .inr (hold hk)
  refine h.handOver hmoves ?_ (by omega) (hi ▸ h.nodup) (hi ▸ h.cap)
  rw [hn]
  exact Nat.lt_succ_self _

theorem Inv.put (h : Inv s) {call : Nat}
    (howned : s.owned call = some stream)
    (hroom : (s.transport.idle addr).length < maxIdlePerPeer)
    (ho : s'.owned = Function.update s.owned call none)
    (hn : s'.opened = s.opened)
    (hi : s'.transport.idle = Function.update s.transport.idle addr
      (s.transport.idle addr ++ [stream])) : Inv s' := by
  have hheld : s.Holds stream (.call call) := howned
  have hmoves : ∀ c k, s'.Holds c k → (c = stream ∧ k = .idle addr) ∨
      (s.Holds c k ∧ c ≠ stream) := by
    intro c k hk
    have helse : k ≠ .call call → s.Holds c k →
        s.Holds c k ∧ c ≠ stream := by
      intro hne hk
      refine ⟨hk, ?_⟩
      rintro rfl
      exact hne (h.once hk hheld)
    cases k with
    | call id =>
        rw [State.Holds, ho] at hk
        by_cases hid : id = call
        · subst hid
          rw [Function.update_self] at hk
          cases hk
        · rw [Function.update_of_ne hid] at hk
          exact .inr (helse (by simpa using hid) hk)
    | idle b =>
        rw [State.Holds, hi] at hk
        by_cases hb : b = addr
        · subst hb
          rw [Function.update_self] at hk
          rcases List.mem_append.mp hk with hk | hk
          · exact .inr (helse (by simp) hk)
          · exact .inl ⟨List.mem_singleton.mp hk, rfl⟩
        · rw [Function.update_of_ne hb] at hk
          exact .inr (helse (by simp) hk)
  refine h.handOver hmoves (hn ▸ h.opened hheld) hn.ge ?_ ?_
  · intro b
    rw [hi]
    by_cases hb : b = addr
    · subst hb
      rw [Function.update_self]
      refine List.nodup_append.mpr ⟨h.nodup b, List.nodup_singleton _, ?_⟩
      intro c hc c' hc'
      rw [List.mem_singleton] at hc'
      rintro rfl
      subst hc'
      cases h.once (h := .idle b) hc hheld
    · rw [Function.update_of_ne hb]
      exact h.nodup b
  · intro b
    rw [hi]
    by_cases hb : b = addr
    · subst hb
      rw [Function.update_self, List.length_append]
      exact hroom
    · rw [Function.update_of_ne hb]
      exact h.cap b

theorem Inv.step (h : Inv s) (hd : Does s s' a) : Inv s' := by
  cases hd with
  | prune peers ho hn hp hi =>
      refine h.shrink (fun id c hid => ho ▸ hid) ?_ hn
      intro addr
      rw [hi]
      split
      · exact List.Sublist.refl _
      · exact List.nil_sublist _
  | keep call c ha hc ho hn hp hi =>
      exact h.keep hc ho hn fun addr => hi ▸ List.Sublist.refl _
  | take addr ho hn hp hi =>
      cases hlast : (s.transport.idle addr).getLast? with
      | none =>
          -- no idle connection: the call will have to open one
          rw [hlast] at ho
          rw [List.getLast?_eq_none_iff] at hlast
          rw [hlast, List.dropLast_nil, ← hlast,
            Function.update_eq_self] at hi
          exact h.keep (by simp) ho hn fun b => hi ▸ List.Sublist.refl _
      | some last =>
          rw [hlast] at ho
          exact h.take hlast ho hn hi
  | dial ho hn hp hi => exact h.dial ho hn hi
  | @put call addr stream hcall ho hn hp hi =>
      have howned : s.owned call = some stream := by
        simp [State.owned, hcall, Stage.stream?]
      split at hi
      · next hroom => exact h.put howned hroom ho hn hi
      · rw [Function.update_eq_self] at hi
        exact h.keep (by simp) ho hn fun b => hi ▸ List.Sublist.refl _

theorem Steps.inv (h : Steps s₀ trace s) (h₀ : Inv s₀) : Inv s := by
  induction h with
  | nil => exact h₀
  | snoc _ hs ih => exact ih.step (does_of_step hs)

/-! ## The pool and the book -/

/-- Every address with an idle connection is that of a peer in the book. -/
def State.Current (s : State) : Prop :=
  ∀ addr, s.transport.idle addr ≠ [] → Lists s.transport.peers addr = true

/-- The step does not put a connection back under an address that has left
the book. -/
def State.InBook (s : State) : Action → Prop
  | .checkin call => ∀ addr stream,
      s.calls call = some (.returning addr stream) →
      Lists s.transport.peers addr = true
  | _ => True

theorem State.Current.init (peers : BTreeMap NodeId Addr) :
    (State.init peers).Current := fun _ h => absurd rfl h

theorem State.Current.shrink (h : s.Current)
    (hp : s'.transport.peers = s.transport.peers)
    (hi : ∀ addr, s'.transport.idle addr ≠ [] →
      s.transport.idle addr ≠ []) : s'.Current := by
  intro addr hne
  rw [hp]
  exact h addr (hi addr hne)

/-- From a pool that is in order, a step leads to one just when it does not
return a connection to an address outside the book. -/
theorem Does.current_iff (hd : Does s s' a) (h : s.Current) :
    s'.Current ↔ s.InBook a := by
  cases hd with
  | prune peers ho hn hp hi =>
      refine iff_of_true ?_ trivial
      intro addr hne
      rw [hi] at hne
      rw [hp]
      by_contra hout
      exact hne (if_neg hout)
  | keep call c ha hc ho hn hp hi =>
      refine iff_of_true (h.shrink hp fun addr => ?_) ?_
      · rw [hi]
        exact id
      · cases a with
        | checkin call => exact absurd rfl (ha call)
        | _ => trivial
  | take addr ho hn hp hi =>
      refine iff_of_true (h.shrink hp fun b => ?_) trivial
      rw [hi]
      by_cases hb : b = addr
      · subst hb
        rw [Function.update_self]
        intro hne hnil
        rw [hnil] at hne
        exact hne rfl
      · rw [Function.update_of_ne hb]
        exact id
  | dial ho hn hp hi =>
      refine iff_of_true (h.shrink hp fun addr => ?_) trivial
      rw [hi]
      exact id
  | @put call addr stream hcall ho hn hp hi =>
      have hin : s.InBook (.checkin call) ↔
          Lists s.transport.peers addr = true := by
        constructor
        · exact fun hin => hin addr stream hcall
        · intro hin b c hb
          cases Option.some.inj (hcall.symm.trans hb)
          exact hin
      rw [hin]
      constructor
      · intro h'
        -- outside the book nothing was idle, so there was room
        by_contra hout
        have hnil : s.transport.idle addr = [] := by
          by_contra hne
          exact hout (h addr hne)
        refine hout (hp ▸ h' addr ?_)
        rw [hi, Function.update_self, hnil]
        exact List.cons_ne_nil stream []
      · intro hin b hne
        rw [hp]
        by_cases hb : b = addr
        · subst hb
          exact hin
        · rw [hi, Function.update_of_ne hb] at hne
          exact h b hne

theorem Steps.current_iff (h : Steps s₀ trace s) (h₀ : s₀.Current) :
    ((∀ x ∈ trace, x.1.Current) ∧ s.Current) ↔
      ∀ x ∈ trace, x.1.InBook x.2 := by
  induction h with
  | nil => exact iff_of_true ⟨by simp, h₀⟩ (by simp)
  | snoc _ hs ih =>
      have hd := does_of_step hs
      simp only [List.forall_mem_append, List.forall_mem_singleton]
      rw [ih]
      constructor
      · rintro ⟨hin, hcur⟩
        exact ⟨hin, (hd.current_iff (ih.mpr hin).2).mp hcur⟩
      · rintro ⟨hin, hlast⟩
        exact ⟨hin, (hd.current_iff (ih.mpr hin).2).mpr hlast⟩

/-- Along any interleaving of RPCs and `set_peers` calls, the pool holds
addresses of the book only, in every state, just when no step puts a
connection back under an address that has left the book. In any case at most
`MAX_IDLE_PER_PEER` connections are idle for an address, and no connection has
two holders among the RPCs and the pool's addresses. -/
theorem pool_current_iff (peers : BTreeMap NodeId Addr)
    (h : Steps (State.init peers) trace s) :
    (((∀ x ∈ trace, x.1.Current) ∧ s.Current) ↔
      ∀ x ∈ trace, x.1.InBook x.2) ∧
    (∀ addr, (s.transport.idle addr).length ≤ maxIdlePerPeer) ∧
    ∀ c k k', s.Holds c k → s.Holds c k' → k = k' := by
  have hinv := h.inv (Inv.init peers)
  exact ⟨h.current_iff (State.Current.init peers), hinv.cap,
    fun c k k' hk hk' => hinv.once hk hk'⟩

def onePeer : BTreeMap NodeId Addr := BTreeMap.empty.insert 2 "b:7000"

/-- An RPC that puts its connection back, and a removal of its peer, which
prunes it. -/
def promptActions : List Action :=
  [.send 0 2, .checkout 0, .connect 0 true, .exchange 0 (.ok ([], true)),
    .checkin 0, .setPeers BTreeMap.empty]

/-- Before the `i`-th of them. -/
def promptState (i : ℕ) : State :=
  (promptActions.take i).foldl (fun s a => (s.step a).getD s)
    (State.init onePeer)

def promptTrace : List (State × Action) :=
  [(promptState 0, .send 0 2), (promptState 1, .checkout 0),
    (promptState 2, .connect 0 true),
    (promptState 3, .exchange 0 (.ok ([], true))),
    (promptState 4, .checkin 0), (promptState 5, .setPeers BTreeMap.empty)]

theorem pool_current_iff_prompt :
    Steps (State.init onePeer) promptTrace (promptState 6) ∧
      (promptState 5).transport.idle "b:7000" = [0] ∧
      (∀ x ∈ promptTrace, x.1.InBook x.2) ∧
      (∀ x ∈ promptTrace, x.1.Current) ∧ (promptState 6).Current := by
  have h : Steps (State.init onePeer) promptTrace (promptState 6) :=
    .snoc (a := .setPeers BTreeMap.empty)
      (.snoc (a := .checkin 0)
        (.snoc (a := .exchange 0 (.ok ([], true)))
          (.snoc (a := .connect 0 true)
            (.snoc (a := .checkout 0)
              (.snoc (a := .send 0 2) .nil rfl) rfl) rfl) rfl) rfl) rfl
  have hin : ∀ x ∈ promptTrace, x.1.InBook x.2 := by
    simp only [promptTrace, List.forall_mem_cons]
    refine ⟨trivial, trivial, trivial, trivial, ?_, trivial,
      List.forall_mem_nil _⟩
    intro addr stream hcall
    cases hcall
    decide
  exact ⟨h, rfl, hin, (pool_current_iff onePeer h).1.mpr hin⟩

/-- The same steps with the removal while the exchange runs: the connection
comes back to an address that is no longer in the book. -/
theorem pool_current_iff_late : ∃ trace s,
    Steps (State.init onePeer) trace s ∧
      s.transport.idle "b:7000" = [0] ∧ s.transport.peers = BTreeMap.empty ∧
      ¬ s.Current := by
  have h : Steps (State.init onePeer) _ _ :=
    .snoc (a := .checkin 0)
      (.snoc (a := .exchange 0 (.ok ([], true)))
        (.snoc (a := .setPeers BTreeMap.empty)
          (.snoc (a := .connect 0 true)
            (.snoc (a := .checkout 0)
              (.snoc (a := .send 0 2) .nil rfl) rfl) rfl) rfl) rfl) rfl
  refine ⟨_, _, h, rfl, rfl, ?_⟩
  intro hcur
  cases hcur "b:7000" (by decide)

end RustKV.Http
