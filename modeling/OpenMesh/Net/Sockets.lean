import OpenMesh.Library.Runs
import OpenMesh.Net.Transport

namespace OpenMesh.Net.Sockets

open OpenMesh.Core.Buffers OpenMesh.Library.Runs OpenMesh.Net.Transport

/-- `AF_UNSPEC`, and the family of a socket that is not open. -/
def unspec : Nat := 0

inductive Call where
  | setsockopt
  | bind (family : Nat)
  | sendto (family : Nat) (data : Bytes)
  | poll
  | recvfrom
  | getfl
  | setfl (flags : Nat) (nonblocking : Bool)
  | getsockname
  | close
  deriving DecidableEq

def Call.family : Call → Option Nat
  | .bind family | .sendto family _ => some family
  | _ => none

/-- A call, and the family of the file that the OS has found at its descriptor. -/
structure Entry where
  call : Call
  fd : Int
  file : Option Nat
  deriving DecidableEq

structure Os where
  files : AList fun _ : Int => Nat := ∅
  log : List Entry := []

namespace Os

def call (os : Os) (fd : Int) (call : Call) : Os :=
  { os with log := os.log ++ [⟨call, fd, os.files.lookup fd⟩] }

def openAt (os : Os) (fd : Int) (family : Nat) : Os :=
  { os with files := os.files.insert fd family }

def close (os : Os) (fd : Int) : Os :=
  let os := os.call fd .close
  { os with files := os.files.erase fd }

end Os

/-- What the OS answers in the course of one operation: the family of the address that
`getaddrinfo` finds, the descriptor that `socket` opens, and how the other calls end. -/
structure Answers where
  address : Option Nat := none
  descriptor : Option Int := none
  binds : Bool := true
  took : Option Nat := none
  ready : Bool := true
  arrived : Option Datagram := none
  flags : Option Nat := some 0
  setsFlags : Bool := true
  name : Option Endpoint := none

structure UdpSocket where
  fd : Int := -1
  family : Nat := unspec
  deriving DecidableEq

namespace UdpSocket

variable (s : UdpSocket) (os : Os) (a : Answers)

def isOpen : Bool := 0 ≤ s.fd

def close : UdpSocket × Os :=
  if s.isOpen then ({}, os.close s.fd) else (s, os)

def bind : Bool × UdpSocket × Os :=
  let (s, os) := s.close os
  match a.address with
  | none => (false, s, os)
  | some family => match a.descriptor with
    | none => (false, { s with fd := -1 }, os)
    | some fd =>
      let s : UdpSocket := { fd, family }
      let os := ((os.openAt fd family).call fd .setsockopt).call fd (.bind family)
      if a.binds then (true, s, os) else (false, s.close os)

def hint : Nat := if s.isOpen then s.family else unspec

/-- A socket that is not open yet is opened here. -/
def sendTo (data : Bytes) : Bool × UdpSocket × Os :=
  match a.address with
  | none => (false, s, os)
  | some family =>
    if s.isOpen then (a.took = some data.length, s, os.call s.fd (.sendto family data))
    else match a.descriptor with
      | none => (false, { s with fd := -1 }, os)
      | some fd =>
        (a.took = some data.length, { fd, family },
          (os.openAt fd family).call fd (.sendto family data))

def receive (timeout : Int) (maxSize : Nat) : Option Datagram × UdpSocket × Os :=
  let arrived := a.arrived.map fun d => { d with data := d.data.take maxSize }
  if s.isOpen then
    if 0 ≤ timeout then
      let os := os.call s.fd .poll
      if a.ready then (arrived, s, os.call s.fd .recvfrom) else (none, s, os)
    else (arrived, s, os.call s.fd .recvfrom)
  else (none, s, os)

def setNonblocking (on : Bool) : Bool × UdpSocket × Os :=
  if s.isOpen then
    let os := os.call s.fd .getfl
    match a.flags with
    | none => (false, s, os)
    | some flags => (a.setsFlags, s, os.call s.fd (.setfl flags on))
  else (false, s, os)

def localEndpoint : Option Endpoint × UdpSocket × Os :=
  if s.isOpen then (a.name, s, os.call s.fd .getsockname) else (none, s, os)

end UdpSocket

structure Process where
  objects : AList fun _ : Nat => UdpSocket := ∅
  os : Os := {}

inductive Move where
  | new (this : Nat)
  | moved (this other : Nat)
  | assign (this other : Nat)
  | bind (this : Nat)
  | sendTo (this : Nat) (data : Bytes)
  | receive (this : Nat) (timeout : Int) (maxSize : Nat)
  | setNonblocking (this : Nat) (on : Bool)
  | localEndpoint (this : Nat)
  | close (this : Nat)
  | destroy (this : Nat)

namespace Process

/-- An object that is not alive counts as one that is not open. -/
def socket (p : Process) (this : Nat) : UdpSocket := (p.objects.lookup this).getD {}

def put (p : Process) (this : Nat) (r : UdpSocket × Os) : Process :=
  { objects := p.objects.insert this r.1, os := r.2 }

def take (p : Process) (this other : Nat) : Process :=
  (p.put other ({}, p.os)).put this (p.socket other, p.os)

def step (p : Process) : Move × Answers → Process
  | (.new this, _) => p.put this ({}, p.os)
  | (.moved this other, _) => p.take this other
  | (.assign this other, _) =>
    if this = other then p else (p.put this ((p.socket this).close p.os)).take this other
  | (.bind this, a) => p.put this ((p.socket this).bind p.os a).2
  | (.sendTo this data, a) => p.put this ((p.socket this).sendTo p.os a data).2
  | (.receive this timeout maxSize, a) =>
    p.put this ((p.socket this).receive p.os a timeout maxSize).2
  | (.setNonblocking this on, a) => p.put this ((p.socket this).setNonblocking p.os a on).2
  | (.localEndpoint this, a) => p.put this ((p.socket this).localEndpoint p.os a).2
  | (.close this, _) => p.put this ((p.socket this).close p.os)
  | (.destroy this, _) =>
    let p := p.put this ((p.socket this).close p.os)
    { p with objects := p.objects.erase this }

end Process

open Process

/-- An address has the family that was asked for, if any was, and a descriptor that `socket`
opens is not open yet. -/
def Answers.Honest (a : Answers) (hint : Nat) (os : Os) : Prop :=
  (∀ family ∈ a.address, family ≠ unspec ∧ (hint = unspec ∨ family = hint)) ∧
  ∀ fd ∈ a.descriptor, 0 ≤ fd ∧ fd ∉ os.files

/-- Objects begin and end their lives once, and the OS does what it documents. -/
def Allowed (_ : History Process (Move × Answers)) (p : Process) : Move × Answers → Prop
  | (.new this, _) => this ∉ p.objects
  | (.moved this other, _) => this ∉ p.objects ∧ other ∈ p.objects
  | (.assign this other, _) => this ∈ p.objects ∧ other ∈ p.objects
  | (.bind this, a) => this ∈ p.objects ∧ a.Honest unspec ((p.socket this).close p.os).2
  | (.sendTo this _, a) => this ∈ p.objects ∧ a.Honest (p.socket this).hint p.os
  | (.receive this _ _, _) | (.setNonblocking this _, _) | (.localEndpoint this, _)
  | (.close this, _) | (.destroy this, _) => this ∈ p.objects

def Entry.Sound (e : Entry) : Prop := ∃ family ∈ e.file, ∀ asked ∈ e.call.family, asked = family

/-- Each open file belongs to exactly one of the sockets. -/
structure Owned (sockets : Nat → UdpSocket) (os : Os) : Prop where
  closed : ∀ this, (sockets this).isOpen = false → sockets this = {}
  held : ∀ this, (sockets this).isOpen → os.files.lookup (sockets this).fd = some (sockets this).family
  family : ∀ this, (sockets this).isOpen → (sockets this).family ≠ unspec
  apart : ∀ this other, (sockets this).isOpen → (sockets this).fd = (sockets other).fd → this = other
  owner : ∀ fd ∈ os.files, ∃ this, (sockets this).isOpen ∧ (sockets this).fd = fd
  sound : ∀ e ∈ os.log, e.Sound

/-- What an operation does to its own socket, one system call after the other. -/
inductive Effect : UdpSocket × Os → UdpSocket × Os → Prop
  | call {s : UdpSocket} {os : Os} (call : Call) : s.isOpen →
      (∀ asked ∈ call.family, asked = s.family) → Effect (s, os) (s, os.call s.fd call)
  | openAt {os : Os} {fd : Int} {family : Nat} : 0 ≤ fd → fd ∉ os.files → family ≠ unspec →
      Effect ({}, os) ({ fd, family }, os.openAt fd family)
  | close {s : UdpSocket} {os : Os} : s.isOpen → Effect (s, os) ({}, os.close s.fd)

abbrev Effects := Relation.ReflTransGen Effect

variable {sockets : Nat → UdpSocket} {s : UdpSocket} {os : Os} {a : Answers} {this other : Nat}
  {p : Process} {h : History Process (Move × Answers)}

section Operations

theorem close_effects : Effects (s, os) (s.close os) := by
  unfold UdpSocket.close
  split
  · next hopen => exact .single (.close hopen)
  · exact .refl

theorem close_closed (hs : s.isOpen = false → s = {}) : (s.close os).1 = {} := by
  unfold UdpSocket.close
  split
  · rfl
  · next hopen => exact hs (Bool.eq_false_iff.mpr hopen)

theorem bind_effects (hs : s.isOpen = false → s = {}) (honest : a.Honest unspec (s.close os).2) :
    Effects (s, os) (s.bind os a).2 := by
  have heq : s.close os = ({}, (s.close os).2) := Prod.ext (close_closed hs) rfl
  have hclose : Effects (s, os) ({}, (s.close os).2) := by
    rw [← heq]
    exact close_effects
  unfold UdpSocket.bind
  rw [heq]
  cases haddress : a.address with
  | none => exact hclose
  | some family =>
    cases hfd : a.descriptor with
    | none => exact hclose
    | some fd =>
      obtain ⟨hpos, hfresh⟩ := honest.2 fd hfd
      have hopen : ({ fd, family } : UdpSocket).isOpen := decide_eq_true hpos
      have hbound := ((hclose.tail (.openAt hpos hfresh (honest.1 family haddress).1)).tail
        (.call .setsockopt hopen (by simp [Call.family]))).tail
        (.call (.bind family) hopen (by simp [Call.family]))
      dsimp only
      split
      · exact hbound
      · exact hbound.trans close_effects

theorem sendTo_effects (data : Bytes) (hs : s.isOpen = false → s = {})
    (hfamily : s.isOpen → s.family ≠ unspec) (honest : a.Honest s.hint os) : Effects (s, os) (s.sendTo os a data).2 := by
  unfold UdpSocket.sendTo
  cases haddress : a.address with
  | none => exact .refl
  | some family =>
    dsimp only
    split
    · next hopen =>
      have hasked : family = s.family := by
        have hor := (honest.1 family haddress).2
        rw [UdpSocket.hint, if_pos hopen] at hor
        exact hor.resolve_left (hfamily hopen)
      exact .single (.call _ hopen (by simp [Call.family, hasked]))
    · next hopen =>
      obtain rfl := hs (Bool.eq_false_iff.mpr hopen)
      cases hfd : a.descriptor with
      | none => exact .refl
      | some fd =>
        obtain ⟨hpos, hfresh⟩ := honest.2 fd hfd
        have hopen : ({ fd, family } : UdpSocket).isOpen := decide_eq_true hpos
        exact .tail (.single (.openAt hpos hfresh (honest.1 family haddress).1))
          (.call (.sendto family data) hopen (by simp [Call.family]))

theorem receive_effects (timeout : Int) (maxSize : Nat) :
    Effects (s, os) (s.receive os a timeout maxSize).2 := by
  unfold UdpSocket.receive
  dsimp only
  split
  · next hopen =>
    have hrecv : ∀ os, Effect (s, os) (s, os.call s.fd .recvfrom) := fun os =>
      .call .recvfrom hopen (by simp [Call.family])
    have hpoll : Effect (s, os) (s, os.call s.fd .poll) := .call .poll hopen (by simp [Call.family])
    split
    · split
      · exact .tail (.single hpoll) (hrecv _)
      · exact .single hpoll
    · exact .single (hrecv os)
  · exact .refl

theorem setNonblocking_effects (on : Bool) : Effects (s, os) (s.setNonblocking os a on).2 := by
  unfold UdpSocket.setNonblocking
  split
  · next hopen =>
    have hget : Effect (s, os) (s, os.call s.fd .getfl) := .call .getfl hopen (by simp [Call.family])
    cases a.flags with
    | none => exact .single hget
    | some flags =>
      exact .tail (.single hget) (.call (.setfl flags on) hopen (by simp [Call.family]))
  · exact .refl

theorem localEndpoint_effects : Effects (s, os) (s.localEndpoint os a).2 := by
  unfold UdpSocket.localEndpoint
  split
  · next hopen => exact .single (.call .getsockname hopen (by simp [Call.family]))
  · exact .refl

end Operations

section Ownership

theorem Owned.of_call (owned : Owned sockets os) (hopen : (sockets this).isOpen) (call : Call)
    (hasked : ∀ asked ∈ call.family, asked = (sockets this).family) :
    Owned sockets (os.call (sockets this).fd call) := by
  refine { owned with sound := ?_ }
  intro e he
  rcases List.mem_append.mp he with he | he
  · exact owned.sound e he
  · obtain rfl := List.mem_singleton.mp he
    exact ⟨_, owned.held this hopen, hasked⟩

theorem Owned.of_openAt (owned : Owned sockets os) (hthis : sockets this = {}) {fd : Int}
    {family : Nat} (hpos : 0 ≤ fd) (hfresh : fd ∉ os.files) (hfamily : family ≠ unspec) :
    Owned (Function.update sockets this { fd, family }) (os.openAt fd family) := by
  have hopen : ({ fd, family } : UdpSocket).isOpen := decide_eq_true hpos
  have hother : ∀ other, (sockets other).isOpen → other ≠ this ∧ (sockets other).fd ≠ fd := by
    intro other hother
    constructor
    · rintro rfl
      rw [hthis] at hother
      cases hother
    · intro hfd
      apply hfresh
      rw [← hfd, ← AList.lookup_isSome, owned.held other hother]
      rfl
  constructor
  · intro other hclosed
    by_cases hne : other = this
    · rw [hne, Function.update_self, hopen] at hclosed
      cases hclosed
    · rw [Function.update_of_ne hne] at *
      exact owned.closed other hclosed
  · intro other hother'
    by_cases hne : other = this
    · rw [hne, Function.update_self]
      exact AList.lookup_insert _
    · rw [Function.update_of_ne hne] at *
      exact (AList.lookup_insert_ne (hother other hother').2).trans (owned.held other hother')
  · intro other hother'
    by_cases hne : other = this
    · rw [hne, Function.update_self]
      exact hfamily
    · rw [Function.update_of_ne hne] at *
      exact owned.family other hother'
  · intro x y hx hfd
    by_cases hxthis : x = this <;> by_cases hythis : y = this
    · rw [hxthis, hythis]
    · rw [hxthis, Function.update_self, Function.update_of_ne hythis] at hfd
      have hy : (sockets y).isOpen := by
        rw [UdpSocket.isOpen, ← hfd]
        exact hopen
      exact absurd hfd.symm (hother y hy).2
    · rw [hythis, Function.update_self, Function.update_of_ne hxthis] at hfd
      rw [Function.update_of_ne hxthis] at hx
      exact absurd hfd (hother x hx).2
    · rw [Function.update_of_ne hxthis] at hx
      rw [Function.update_of_ne hxthis, Function.update_of_ne hythis] at hfd
      exact owned.apart x y hx hfd
  · intro fd' hfd'
    rcases (AList.mem_insert _).mp hfd' with rfl | hold
    · refine ⟨this, ?_⟩
      rw [Function.update_self]
      exact ⟨hopen, rfl⟩
    · obtain ⟨other, hopen', hfd⟩ := owned.owner fd' hold
      refine ⟨other, ?_⟩
      rw [Function.update_of_ne (hother other hopen').1]
      exact ⟨hopen', hfd⟩
  · exact owned.sound

theorem Owned.of_close (owned : Owned sockets os) (hopen : (sockets this).isOpen) :
    Owned (Function.update sockets this {}) (os.close (sockets this).fd) := by
  have hcalled := owned.of_call hopen .close (by simp [Call.family])
  have hother : ∀ other, (Function.update sockets this ({} : UdpSocket) other).isOpen →
      other ≠ this ∧ (sockets other).isOpen ∧ (sockets other).fd ≠ (sockets this).fd := by
    intro other hother
    have hne : other ≠ this := by
      rintro rfl
      rw [Function.update_self] at hother
      cases hother
    rw [Function.update_of_ne hne] at hother
    exact ⟨hne, hother, fun hfd => hne (owned.apart other this hother hfd)⟩
  constructor
  · intro other hclosed
    by_cases hne : other = this
    · rw [hne, Function.update_self]
    · rw [Function.update_of_ne hne] at *
      exact owned.closed other hclosed
  · intro other hopen'
    obtain ⟨hne, hopen', hfd⟩ := hother other hopen'
    rw [Function.update_of_ne hne]
    exact (AList.lookup_erase_ne hfd).trans (owned.held other hopen')
  · intro other hopen'
    obtain ⟨hne, hopen', -⟩ := hother other hopen'
    rw [Function.update_of_ne hne]
    exact owned.family other hopen'
  · intro x y hx hfd
    obtain ⟨hxthis, hx, -⟩ := hother x hx
    rw [Function.update_of_ne hxthis] at hfd
    by_cases hythis : y = this
    · rw [hythis, Function.update_self] at hfd
      rw [UdpSocket.isOpen, hfd] at hx
      cases hx
    · rw [Function.update_of_ne hythis] at hfd
      exact owned.apart x y hx hfd
  · intro fd hfd
    obtain ⟨hne, hfd⟩ := AList.mem_erase.mp hfd
    obtain ⟨other, hopen', rfl⟩ := owned.owner fd hfd
    refine ⟨other, ?_⟩
    have hother' : other ≠ this := by
      rintro rfl
      exact hne rfl
    rw [Function.update_of_ne hother']
    exact ⟨hopen', rfl⟩
  · exact hcalled.sound

theorem Effects.owned {r r' : UdpSocket × Os} (effects : Effects r r')
    (owned : Owned (Function.update sockets this r.1) r.2) :
    Owned (Function.update sockets this r'.1) r'.2 := by
  induction effects with
  | refl => exact owned
  | @tail r r' _ effect ih =>
    have hself : Function.update sockets this r.1 this = r.1 := Function.update_self ..
    cases effect with
    | @call s os call hopen hasked =>
      have hopen' : (Function.update sockets this s this).isOpen := by rwa [hself]
      have hcalled := ih.of_call hopen' call (by rwa [hself])
      rwa [hself] at hcalled
    | openAt hpos hfresh hfamily =>
      have hopened := ih.of_openAt hself hpos hfresh hfamily
      rw [Function.update_idem] at hopened
      exact hopened
    | @close s os hopen =>
      have hopen' : (Function.update sockets this s this).isOpen := by rwa [hself]
      have hclosed := ih.of_close hopen'
      rw [hself, Function.update_idem] at hclosed
      exact hclosed

theorem Owned.comp (owned : Owned sockets os) (e : Equiv.Perm Nat) : Owned (sockets ∘ e) os where
  closed this := owned.closed (e this)
  held this := owned.held (e this)
  family this := owned.family (e this)
  apart x y hx hfd := e.injective (owned.apart (e x) (e y) hx hfd)
  owner fd hfd := by
    obtain ⟨this, hthis⟩ := owned.owner fd hfd
    refine ⟨e.symm this, ?_⟩
    rw [Function.comp_apply, Equiv.apply_symm_apply]
    exact hthis
  sound := owned.sound

end Ownership

section Steps

theorem socket_put (p : Process) (this : Nat) (r : UdpSocket × Os) :
    (p.put this r).socket = Function.update p.socket this r.1 := by
  funext other
  by_cases hne : other = this
  · rw [hne, Function.update_self, socket, put, AList.lookup_insert]
    rfl
  · rw [Function.update_of_ne hne, socket, put, AList.lookup_insert_ne hne]
    rfl

theorem socket_of_notMem (hthis : this ∉ p.objects) : p.socket this = {} := by
  rw [socket, AList.lookup_eq_none.mpr hthis]
  rfl

theorem socket_erase (p : Process) (hthis : p.socket this = {}) :
    ({ p with objects := p.objects.erase this } : Process).socket = p.socket := by
  funext other
  by_cases hne : other = this
  · rw [hne, hthis, socket, AList.lookup_erase]
    rfl
  · rw [socket, AList.lookup_erase_ne hne]
    rfl

theorem put_owned (owned : Owned p.socket p.os) {r : UdpSocket × Os}
    (effects : Effects (p.socket this, p.os) r) : Owned (p.put this r).socket (p.put this r).os := by
  rw [socket_put]
  apply effects.owned
  rw [Function.update_eq_self]
  exact owned

theorem take_owned (owned : Owned p.socket p.os) (hthis : p.socket this = {}) :
    Owned (p.take this other).socket (p.take this other).os := by
  have hswap : (p.take this other).socket = p.socket ∘ Equiv.swap this other := by
    rw [take, socket_put, socket_put]
    funext x
    rw [Function.comp_apply, Equiv.swap_apply_def]
    by_cases hx : x = this
    · rw [if_pos hx, hx, Function.update_self]
    · rw [if_neg hx, Function.update_of_ne hx]
      by_cases hx : x = other
      · rw [if_pos hx, hx, Function.update_self, hthis]
      · rw [if_neg hx, Function.update_of_ne hx]
  rw [hswap]
  exact owned.comp _

theorem step_owned (owned : Owned p.socket p.os) {m : Move × Answers} (allowed : Allowed h p m) :
    Owned (p.step m).socket (p.step m).os := by
  obtain ⟨move, a⟩ := m
  cases move with
  | new this =>
    apply put_owned owned
    rw [socket_of_notMem allowed]
  | moved this other =>
    exact take_owned owned (socket_of_notMem allowed.1)
  | assign this other =>
    rw [step]
    split
    · exact owned
    · apply take_owned (put_owned owned close_effects)
      rw [socket_put, Function.update_self]
      exact close_closed (owned.closed this)
  | bind this => exact put_owned owned (bind_effects (owned.closed this) allowed.2)
  | sendTo this data =>
    exact put_owned owned (sendTo_effects data (owned.closed this) (owned.family this) allowed.2)
  | receive this timeout maxSize => exact put_owned owned (receive_effects timeout maxSize)
  | setNonblocking this on => exact put_owned owned (setNonblocking_effects on)
  | localEndpoint this => exact put_owned owned localEndpoint_effects
  | close this => exact put_owned owned close_effects
  | destroy this =>
    have hput : Owned (p.put this ((p.socket this).close p.os)).socket
        (p.put this ((p.socket this).close p.os)).os := put_owned owned close_effects
    rw [step]
    dsimp only
    rw [socket_erase]
    · exact hput
    · rw [socket_put, Function.update_self]
      exact close_closed (owned.closed this)

theorem run_owned (run : Run Process.step Allowed {} h p) : Owned p.socket p.os := by
  refine run.invariant (fun _ p => Owned p.socket p.os) ?_
    fun _ _ _ _ owned allowed => step_owned owned allowed
  constructor
  · exact fun _ _ => rfl
  · exact fun _ hopen => absurd hopen Bool.false_ne_true
  · exact fun _ hopen => absurd hopen Bool.false_ne_true
  · exact fun _ _ hopen => absurd hopen Bool.false_ne_true
  · exact fun _ hfd => absurd hfd (AList.notMem_empty _)
  · exact fun _ he => absurd he List.not_mem_nil

end Steps

/-- A file is open exactly as long as one object that is alive holds it, and every call was made
on an open file, with an address of its family. -/
theorem descriptors_owned (run : Run Process.step Allowed {} h p) :
    (∀ fd, fd ∈ p.os.files ↔
      ∃! this, ∃ s ∈ p.objects.lookup this, s.isOpen ∧ s.fd = fd ∧ p.os.files.lookup fd = some s.family) ∧
    (∀ e ∈ p.os.log, e.Sound) ∧ (p.objects = ∅ → p.os.files = ∅) := by
  have owned := run_owned run
  have hlookup : ∀ {this : Nat}, (p.socket this).isOpen →
      p.objects.lookup this = some (p.socket this) := by
    intro this hopen
    cases hthis : p.objects.lookup this with
    | none =>
      rw [socket, hthis] at hopen
      cases hopen
    | some s => rw [socket, hthis, Option.getD_some]
  have hsocket : ∀ {this : Nat} {s : UdpSocket}, s ∈ p.objects.lookup this → p.socket this = s := by
    intro this s hs
    rw [socket, Option.mem_def.mp hs, Option.getD_some]
  refine ⟨?_, owned.sound, ?_⟩
  · intro fd
    constructor
    · intro hfd
      obtain ⟨this, hopen, rfl⟩ := owned.owner fd hfd
      refine ⟨this, ⟨_, hlookup hopen, hopen, rfl, owned.held this hopen⟩, ?_⟩
      rintro other ⟨s, hs, -, hfd, -⟩
      obtain rfl := hsocket hs
      exact (owned.apart this other hopen hfd.symm).symm
    · rintro ⟨this, ⟨s, -, -, -, hfile⟩, -⟩
      rw [← AList.lookup_isSome, hfile]
      rfl
  · intro hempty
    apply AList.ext
    apply List.map_eq_nil_iff.mp
    apply List.eq_nil_iff_forall_not_mem.mpr
    intro fd hfd
    obtain ⟨this, hopen, -⟩ := owned.owner fd hfd
    have hthis := hlookup hopen
    rw [hempty] at hthis
    cases hthis

instance (a : Answers) (hint : Nat) (os : Os) : Decidable (a.Honest hint os) :=
  inferInstanceAs (Decidable (_ ∧ _))

instance decidableAllowed (h : History Process (Move × Answers)) (p : Process) :
    ∀ m, Decidable (Allowed h p m)
  | (.new this, _) => inferInstanceAs (Decidable (this ∉ p.objects))
  | (.moved _ _, _) | (.assign _ _, _) | (.bind _, _) | (.sendTo _ _, _) =>
    inferInstanceAs (Decidable (_ ∧ _))
  | (.receive this _ _, _) | (.setNonblocking this _, _) | (.localEndpoint this, _)
  | (.close this, _) | (.destroy this, _) => inferInstanceAs (Decidable (this ∈ p.objects))

instance (e : Entry) : Decidable e.Sound := inferInstanceAs (Decidable (∃ family ∈ e.file, _))

def handing : History Process (Move × Answers) × Process :=
  Run.replay Process.step [] {}
    [(.new 0, {}), (.bind 0, { address := some 2, descriptor := some 3 }), (.new 1, {}),
      (.sendTo 1 [7], { address := some 10, descriptor := some 4, took := some 1 }),
      (.moved 2 0, {}), (.assign 1 2, {}),
      (.bind 1, { address := some 2, descriptor := some 3, binds := false }),
      (.receive 1 0 2048, {}), (.bind 2, { address := some 10, descriptor := some 3 }),
      (.destroy 1, {}), (.assign 2 2, {})]

theorem descriptors_owned_handing :
    (∀ e ∈ handing.2.os.log, e.Sound) ∧ handing.2.os.log.length = 10 ∧
      handing.2.os.files.lookup 3 = some 10 ∧ 4 ∉ handing.2.os.files := by
  refine ⟨(descriptors_owned (h := handing.1) (Run.replay_run .start ?_)).2.1, ?_⟩
  · decide +kernel
  · decide +kernel

end OpenMesh.Net.Sockets
