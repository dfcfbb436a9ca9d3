import Mathlib.Data.List.Basic

/-! The error answers of the API. -/

namespace Attesta.Api

structure ApiError where
  status : Nat
  message : String
  deriving DecidableEq

namespace ApiError

def notFound (message : String) : ApiError := ⟨404, message⟩

def badRequest (message : String) : ApiError := ⟨400, message⟩

def forbidden (message : String) : ApiError := ⟨403, message⟩

def conflict (message : String) : ApiError := ⟨409, message⟩

def tooManyRequests (message : String) : ApiError := ⟨429, message⟩

/-- A database error; its details never reach the client. -/
def internal : ApiError := ⟨500, "internal error"⟩

end ApiError

end Attesta.Api
