import EditScript.Json.Record
import EditScript.Style

namespace EditScript

def Style.reader : Reader Style := .map .ofAttributes .members

end EditScript
