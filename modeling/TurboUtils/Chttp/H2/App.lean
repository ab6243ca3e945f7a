import TurboUtils.Chttp.H2.Receive

/-! Applications and runs. A callback of the application is a program of calls, each of
which may enter further callbacks; a run is a sequence of calls from outside. -/
namespace Chttp.H2

/-- What a callback does: calls of the engine one after the other, each chosen on the
answer to the one before and on what the engine shows, and the value it returns. -/
inductive Script (A : Type*) where
  | done (app : A) (ret : Int)
  | call (app : A) (c : Call) (k : A → Proto → Option ℕ → Script A)

structure App (A : Type*) where
  react : Event → Proto → A → Script A
  pull : ℕ → ℕ → A → A × SourceResult

variable {A : Type*}

/-- A program carried out on an engine whose own callbacks are those of `host`. -/
def runScript (host : Host A) : Script A → St A → St A × Int
  | .done app ret, st => ({ st with app }, ret)
  | .call app c k, st =>
      match call host { st with app } c with
      | (st, r) => runScript host (k st.app st.p r) st

/-- The callbacks of an application, up to a depth of `n` callbacks inside each other. -/
def App.host (app : App A) : ℕ → Host A
  | 0 => ⟨fun _ st => (st, 0), app.pull⟩
  | n + 1 =>
      ⟨fun ev st => runScript (app.host n) (app.react ev st.p st.app) st, app.pull⟩

inductive Op where
  | call (c : Call)
  | send
  | recv (bytes : Bytes)
  | resumeInput (streamId : ℕ)

/-- An engine fresh from `chttp_h2_proto_create`. -/
def endpoint (p : Proto) (app : A) : Endpoint A := ⟨⟨p, app, []⟩, ⟨[], p.config.inputBufferBytes⟩⟩

/-- One step; the flag is a result that is not negative. -/
def step (host : Host A) (ep : Endpoint A) : Op → Endpoint A × Bool
  | .call c =>
      match call host ep.st c with
      | (st, r) => ({ ep with st }, r.isSome)
  | .send =>
      match protoSend host ep.st with
      | (st, r) => ({ ep with st }, r.isSome)
  | .recv bytes => recv host ep bytes
  | .resumeInput streamId => resumeInput host ep streamId

def run (host : Host A) (ep : Endpoint A) : List Op → Endpoint A
  | [] => ep
  | op :: ops => run host (step host ep op).1 ops

/-- The states an engine can reach: created with any accepted configuration, driven by any
application and any steps. -/
def Reachable (app : App A) (n : ℕ) (mode : Mode) (config : ProtoConfig) (ep : Endpoint A) : Prop :=
  ∃ p a ops, protoCreate mode config = some p ∧ ep = run (app.host n) (endpoint p a) ops

theorem Reachable.induction {app : App A} {n : ℕ} {mode : Mode} {config : ProtoConfig}
    {P : Endpoint A → Prop}
    (hinit : ∀ p a, protoCreate mode config = some p → P (endpoint p a))
    (hstep : ∀ ep op, P ep → P (step (app.host n) ep op).1) {ep : Endpoint A}
    (h : Reachable app n mode config ep) : P ep := by
  obtain ⟨p, a, ops, hp, rfl⟩ := h
  have hrun : ∀ ops ep, P ep → P (run (app.host n) ep ops) := by
    intro ops
    induction ops with
    | nil => exact fun ep h => h
    | cons op ops ih => exact fun ep h => ih _ (hstep ep op h)
  exact hrun ops _ (hinit p a hp)

def smallConfig : ProtoConfig := ⟨1, 16468, 16393, 64, 64, 64, 64, 8⟩

theorem smallConfig_created (mode : Mode) : (protoCreate mode smallConfig).isSome = true := by
  cases mode <;> rfl

def smallEndpoint (mode : Mode) : Endpoint Unit :=
  endpoint ((protoCreate mode smallConfig).get (smallConfig_created mode)) ()

theorem smallEndpoint_reachable (app : App Unit) (n : ℕ) (mode : Mode) (ops : List Op) :
    Reachable app n mode smallConfig (run (app.host n) (smallEndpoint mode) ops) :=
  ⟨_, (), ops, (Option.some_get (smallConfig_created mode)).symm, rfl⟩

end Chttp.H2
