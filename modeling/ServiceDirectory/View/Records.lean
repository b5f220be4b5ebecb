import ServiceDirectory.Replica
import ServiceDirectory.Service.Json

namespace ServiceDirectory

/-- The services that entries hold, in their order. -/
def servicesIn (entries : List Entry) : List Service :=
  entries.filterMap fun e => e.value.bind Service.decode?

/-- The keys of entries whose value is not the record of a service. -/
def undecodableIn (entries : List Entry) : List Bytes :=
  (entries.filter fun e => e.value.any fun v => (Service.decode? v).isNone).map (·.key)

/-- A service's record is kept under the text of its id. -/
def Service.key (s : Service) : Bytes := Utf8.encode s.id.text

end ServiceDirectory
